import Quirrel.Array.Methods

/-!
# Array methods and lists

An array stands for the list of its elements. Every method raises an error and leaves the elements
alone, or has the effect of the list operation with the numbers the arguments convert to
(`methods_refine_lists`), where sizes fit in `size_type` and the indices of `swap` in an `int`.
-/

set_option autoImplicit false

namespace Quirrel.Array

open Quirrel.Lib Quirrel.Vm

variable {α : Type} (V : Values α)

/-! ## List operations -/

/-- An index counted from the end when it is negative. -/
def fromEnd (len : Nat) (i : Int) : Int :=
  if i < 0 then len + i else i

/-- The effect of a method on a list, with what it returns. An element is read through a weak
reference. There is no operation with an index outside the list or a negative size. -/
def Method.listOp (xs : List α) : Method α Int → Option (Ret α × List α)
  | .append items => some (.self, xs ++ items)
  | .extend sources =>
    some (.self, sources.foldl (fun ys src =>
      match src with
      | .self => ys ++ ys
      | .other zs => ys ++ zs) xs)
  | .reverse => some (.self, xs.reverse)
  | .pop => xs.getLast?.map fun x => (.value x, xs.dropLast)
  | .insert i x =>
    if 0 ≤ i ∧ i ≤ xs.length then some (.self, xs.insertIdx i.toNat x) else none
  | .remove i =>
    if 0 ≤ i then xs[i.toNat]?.map fun x => (.value (V.realval x), xs.eraseIdx i.toNat) else none
  | .resize n fill =>
    if 0 ≤ n then
      some (.self, xs.take n.toNat ++ List.replicate (n.toNat - xs.length) (fill.getD V.null))
    else none
  | .slice start stop =>
    let s := (fromEnd xs.length (start.getD 0)).toNat
    let e := (fromEnd xs.length (stop.getD xs.length)).toNat
    some (.newArray (((xs.take e).drop s).map V.realval), xs)
  | .swap i j =>
    if 0 ≤ i ∧ i < xs.length ∧ 0 ≤ j ∧ j < xs.length then
      some (.self, swapCells xs i.toNat j.toNat)
    else none
  | .get i => if 0 ≤ i then xs[i.toNat]?.map fun x => (.value (V.realval x), xs) else none
  | .set i x =>
    if 0 ≤ i ∧ i < xs.length then some (.value x, xs.set i.toNat x) else none

/-- The method with the integers that its numbers convert to; `swap` counts negative ones from the
end. -/
def Method.read (len : Nat) : Method α SQNumber → Method α Int
  | .append items => .append items
  | .extend sources => .extend sources
  | .reverse => .reverse
  | .pop => .pop
  | .insert idx val => .insert (idx.tointeger V.cast).toInt val
  | .remove idx => .remove (idx.tointeger V.cast).toInt
  | .resize size fill => .resize (size.tointeger V.cast).toInt fill
  | .slice start stop =>
    .slice (start.map fun n => (n.tointeger V.cast).toInt)
      (stop.map fun n => (n.tointeger V.cast).toInt)
  | .swap key1 key2 =>
    .swap (fromEnd len (key1.tointeger V.cast).toInt) (fromEnd len (key2.tointeger V.cast).toInt)
  | .get key => .get (key.tointeger V.cast).toInt
  | .set key val => .set (key.tointeger V.cast).toInt val

/-- The outcome of a call that stands for the list operation `op`, or for none: an error changes
nothing, and a success is the effect of the operation. -/
def Refines (op : Option (Method α Int)) (a : SqVector α) : Outcome α → Prop
  | .fault => False
  | .error _ b => b.vals = a.vals
  | .ok ret b => ∃ m, op = some m ∧ m.listOp V a.vals = some (ret, b.vals)

/-- An index or a size that an `int` holds. -/
def FitsInt (n : SQNumber) : Prop :=
  -2 ^ 31 ≤ (n.tointeger V.cast).toInt ∧ (n.tointeger V.cast).toInt < 2 ^ 31

/-- The length of the array after appending the sources one after the other. -/
def extendedLength : Nat → List (Source α) → Nat
  | len, [] => len
  | len, .self :: sources => extendedLength (len + len) sources
  | len, .other zs :: sources => extendedLength (len + zs.length) sources

/-- The sizes of the call fit in `size_type`, where doubling the allocation must fit as well, and
the indices of `swap` in an `int`. -/
def Method.Fits (len : Nat) : Method α SQNumber → Prop
  | .append items => len + items.length < 2 ^ 32
  | .extend sources => extendedLength len sources ≤ 2 ^ 31
  | .insert _ _ => len + 1 < 2 ^ 32
  | .resize size _ => (size.tointeger V.cast).toInt < 2 ^ 32
  | .swap key1 key2 => len < 2 ^ 31 ∧ FitsInt V key1 ∧ FitsInt V key2
  | _ => True

/-! ## The calls one by one -/

/-- The check of the flag in front of a method. -/
theorem refines_checkImmutable {immutable : Bool} {op : Option (Method α Int)} {a : SqVector α}
    {body : Outcome α} (h : Refines V op a body) :
    Refines V op a (checkImmutable immutable a body) := by
  cases immutable with
  | true => exact rfl
  | false => exact h

/-- A method that changes the vector and cannot fail. -/
theorem refines_ofVector {m : Method α Int} {a : SqVector α} {ret : Ret α} {vals : List α}
    {res : Option (SqVector α)} (hres : ∃ w, res = some w ∧ w.vals = vals)
    (hop : m.listOp V a.vals = some (ret, vals)) :
    Refines V (some m) a (.ofVector ret res) := by
  obtain ⟨w, rfl, rfl⟩ := hres
  exact ⟨m, rfl, hop⟩

/-- Shrinking keeps the values. -/
theorem shrinkIfNeeded_eq_some (a : SqVector α) :
    ∃ w, shrinkIfNeeded a = some w ∧ w.vals = a.vals := by
  rw [shrinkIfNeeded]
  split
  · exact a.shrinktofit_eq_some
  · exact ⟨a, rfl, rfl⟩

/-- Shrinking after an operation does not change the elements. -/
theorem bind_shrinkIfNeeded_eq_some {res : Option (SqVector α)} {vals : List α}
    (h : ∃ w, res = some w ∧ w.vals = vals) :
    ∃ w, (res >>= shrinkIfNeeded) = some w ∧ w.vals = vals := by
  obtain ⟨w, rfl, rfl⟩ := h
  exact shrinkIfNeeded_eq_some w

/-- A resize to a size below 2^32 gives the list of that size. -/
theorem arrResize_eq_some (a : SqVector α) {size : SQInteger} (fill : α) (h0 : 0 ≤ size.toInt)
    (h : size.toInt < 2 ^ 32) :
    ∃ w, arrResize a size fill = some w ∧
      w.vals = a.vals.take size.toInt.toNat ++
        List.replicate (size.toInt.toNat - a.vals.length) fill := by
  have hres := a.resize_eq_some (sizeType size) fill
  rw [toNat_sizeType h0 h] at hres
  exact bind_shrinkIfNeeded_eq_some hres

theorem toInt_ofNat_size {n : Nat} (h : n < 2 ^ 32) : (BitVec.ofNat 64 n).toInt = n := by
  rw [BitVec.toInt_eq_toNat_cond, BitVec.toNat_ofNat]
  omega

/-- `append` is the method of lists. -/
theorem arrayAppend_refines (immutable : Bool) (a : SqVector α) (items : List α)
    (h : a.size + items.length < 2 ^ 32) :
    Refines V (some (.append items)) a (arrayAppend V immutable a items) := by
  apply refines_checkImmutable
  have hsize := toInt_ofNat_size h
  obtain ⟨r, hr, hvals⟩ := arrResize_eq_some a V.null
    (Int.le_trans (by omega) (Int.le_of_eq hsize.symm)) (by omega)
  have hcells : r.vals = a.vals ++ List.replicate items.length V.null := by
    rw [hvals, hsize, Int.toNat_natCast, List.take_of_length_le (by rw [← SqVector.size]; omega),
      ← SqVector.size, Nat.add_sub_cancel_left]
  have hset : setFrom r.vals a.size items = a.vals ++ items := by
    rw [hcells]
    exact setFrom_append a.vals (List.length_replicate ..)
  have hfits : (setFrom r.vals a.size items).length ≤ r.allocated.toNat := by
    have hroom := r.fits
    rw [hcells] at hroom
    rw [hset]
    simpa using hroom
  obtain ⟨w, hw, hwvals⟩ := SqVector.store_eq_some r hfits
  exact refines_ofVector V ⟨w, by rw [hr]; exact hw, hwvals.trans hset⟩ rfl

/-- Extending appends the list. -/
theorem arrExtend_eq_some (a : SqVector α) (xs : List α) (h : a.size + xs.length ≤ 2 ^ 31) :
    ∃ w, arrExtend a xs = some w ∧ w.vals = a.vals ++ xs := by
  induction xs generalizing a with
  | nil => exact ⟨a, rfl, (List.append_nil _).symm⟩
  | cons x xs ih =>
    rw [List.length_cons] at h
    obtain ⟨b, hb, hvals⟩ := SqVector.pushBack_eq_some (v := a) (by omega) x
    have hsize : b.size = a.size + 1 := by
      rw [SqVector.size, hvals, List.length_append]
      rfl
    obtain ⟨w, hw, hwvals⟩ := ih b (by omega)
    refine ⟨w, ?_, ?_⟩
    · rw [arrExtend, hb]
      exact hw
    · rw [hwvals, hvals, List.append_assoc]
      rfl

theorem extendedLength_ge (len : Nat) (sources : List (Source α)) :
    len ≤ extendedLength len sources := by
  induction sources generalizing len with
  | nil => exact Nat.le_refl len
  | cons src sources ih =>
    cases src with
    | self => exact Nat.le_trans (Nat.le_add_left len len) (ih (len + len))
    | other zs => exact Nat.le_trans (Nat.le_add_right len zs.length) (ih (len + zs.length))

/-- Extending by several arrays appends the lists. -/
theorem extendAll_eq_some (a : SqVector α) (sources : List (Source α))
    (h : extendedLength a.size sources ≤ 2 ^ 31) :
    ∃ w, extendAll a sources = some w ∧
      (Method.extend sources : Method α Int).listOp V a.vals = some (.self, w.vals) := by
  induction sources generalizing a with
  | nil => exact ⟨a, rfl, rfl⟩
  | cons src sources ih =>
    have hlen : a.size + (src.cells a).length ≤ 2 ^ 31 ∧
        extendedLength (a.size + (src.cells a).length) sources ≤ 2 ^ 31 := by
      cases src with
      | self => exact ⟨Nat.le_trans (extendedLength_ge _ _) h, h⟩
      | other zs => exact ⟨Nat.le_trans (extendedLength_ge _ _) h, h⟩
    obtain ⟨b, hb, hvals⟩ := arrExtend_eq_some a (src.cells a) hlen.1
    have hsize : b.size = a.size + (src.cells a).length := by
      rw [SqVector.size, hvals, List.length_append]
      rfl
    obtain ⟨w, hw, hop⟩ := ih b (by rw [hsize]; exact hlen.2)
    refine ⟨w, ?_, ?_⟩
    · rw [extendAll, hb]
      exact hw
    · rw [← hop, hvals]
      cases src <;> rfl

/-- `reverse` is the method of lists. -/
theorem arrayReverse_refines (immutable : Bool) (a : SqVector α) :
    Refines V (some .reverse) a (arrayReverse immutable a) := by
  apply refines_checkImmutable
  by_cases hpos : 0 < a.size
  · have hrev : swapEnds (a.size - 1) a.vals (a.size / 2) = a.vals.reverse :=
      swapEnds_eq_reverse (List.ne_nil_of_length_pos hpos)
    rw [if_pos hpos, hrev]
    refine refines_ofVector V (SqVector.store_eq_some a ?_) rfl
    rw [List.length_reverse]
    exact a.fits
  · have hnil : a.vals = [] := List.eq_nil_of_length_eq_zero (by rw [← SqVector.size]; omega)
    rw [if_neg hpos]
    exact ⟨.reverse, rfl, by rw [hnil]; rfl⟩

/-- `pop` is the method of lists. -/
theorem arrayPop_refines (immutable : Bool) (a : SqVector α) :
    Refines V (some .pop) a (arrayPop immutable a) := by
  apply refines_checkImmutable
  cases hlast : a.vals.getLast? with
  | none => exact rfl
  | some x =>
    refine refines_ofVector V (bind_shrinkIfNeeded_eq_some a.popBack_eq_some) ?_
    rw [Method.listOp, hlast]
    rfl

/-- `insert` is the method of lists. -/
theorem arrayInsert_refines (immutable : Bool) (a : SqVector α) (idx : SQNumber) (val : α)
    (h : a.size + 1 < 2 ^ 32) :
    Refines V (some (.insert (idx.tointeger V.cast).toInt val)) a
      (arrayInsert V immutable a idx val) := by
  apply refines_checkImmutable
  by_cases hrange : (idx.tointeger V.cast).toInt < 0 ∨
      (a.size : Int) < (idx.tointeger V.cast).toInt
  · rw [if_pos hrange]
    exact rfl
  · rw [if_neg hrange]
    have hidx := toNat_sizeType (n := idx.tointeger V.cast) (by omega) (by omega)
    have hle : (sizeType (idx.tointeger V.cast)).toNat ≤ a.size := by omega
    have hins := SqVector.insert_eq_some V.null val hle h
    rw [hidx] at hins
    refine refines_ofVector V hins ?_
    rw [Method.listOp, if_pos ⟨by omega, by rw [← SqVector.size]; omega⟩]

/-- `Get` compares as an unsigned number: a negative index is not below the size. -/
theorem toNat_lt_size_iff (a : SqVector α) (i : SQInteger) :
    i.toNat < a.size ↔ 0 ≤ i.toInt ∧ i.toInt < a.size := by
  have hsize := a.size_lt
  have hcond := BitVec.toInt_eq_toNat_cond i
  have hlt := i.isLt
  split at hcond <;> omega

theorem toNat_eq_of_nonneg {i : SQInteger} (h : 0 ≤ i.toInt) : i.toInt.toNat = i.toNat := by
  have hcond := BitVec.toInt_eq_toNat_cond i
  have hlt := i.isLt
  split at hcond <;> omega

/-- An element is read in range only. -/
theorem arrGet_eq (a : SqVector α) (i : SQInteger) :
    arrGet V a i = if 0 ≤ i.toInt then a.vals[i.toInt.toNat]?.map V.realval else none := by
  rw [arrGet]
  by_cases hlt : i.toNat < a.size
  · have hin := (toNat_lt_size_iff a i).mp hlt
    rw [if_pos hlt, if_pos hin.1, toNat_eq_of_nonneg hin.1]
  · rw [if_neg hlt]
    split
    · rename_i h0
      have hout : a.vals.length ≤ i.toInt.toNat := by
        rw [toNat_eq_of_nonneg h0]
        exact Nat.le_of_not_lt hlt
      rw [List.getElem?_eq_none hout]
      rfl
    · rfl

/-- A successful `Get` has an element at the index. -/
theorem exists_of_arrGet_eq_some {a : SqVector α} {i : SQInteger} {y : α}
    (h : arrGet V a i = some y) :
    0 ≤ i.toInt ∧ ∃ x, a.vals[i.toInt.toNat]? = some x ∧ V.realval x = y := by
  rw [arrGet_eq] at h
  by_cases h0 : 0 ≤ i.toInt
  · rw [if_pos h0] at h
    exact ⟨h0, Option.map_eq_some_iff.mp h⟩
  · rw [if_neg h0] at h
    exact nomatch h

/-- `remove` is the method of lists. -/
theorem arrayRemove_refines (immutable : Bool) (a : SqVector α) (idx : SQNumber) :
    Refines V (some (.remove (idx.tointeger V.cast).toInt)) a (arrayRemove V immutable a idx) := by
  apply refines_checkImmutable
  cases hget : arrGet V a (idx.tointeger V.cast) with
  | none =>
    simp only [hget]
    exact rfl
  | some y =>
    obtain ⟨h0, x, hx, rfl⟩ := exists_of_arrGet_eq_some V hget
    have hlt := (List.getElem?_eq_some_iff.mp hx).1
    have hsize := a.size_lt
    rw [SqVector.size] at hsize
    have hidx := toNat_sizeType (n := idx.tointeger V.cast) h0 (by omega)
    have hrem := a.remove_eq_some (sizeType (idx.tointeger V.cast))
    rw [hidx] at hrem
    simp only [hget]
    refine refines_ofVector V (bind_shrinkIfNeeded_eq_some hrem) ?_
    rw [Method.listOp, if_pos h0, hx]
    rfl

/-- `resize` is the method of lists. -/
theorem arrayResize_refines (immutable : Bool) (a : SqVector α) (nsize : SQNumber)
    (fill : Option α) (h : (nsize.tointeger V.cast).toInt < 2 ^ 32) :
    Refines V (some (.resize (nsize.tointeger V.cast).toInt fill)) a
      (arrayResize V immutable a nsize fill) := by
  apply refines_checkImmutable
  by_cases hneg : (nsize.tointeger V.cast).toInt < 0
  · rw [if_pos hneg]
    exact rfl
  · rw [if_neg hneg]
    refine refines_ofVector V (arrResize_eq_some a (fill.getD V.null) (by omega) h) ?_
    rw [Method.listOp, if_pos (by omega)]

/-- Reading an index is the method of lists. -/
theorem getIndex_refines (a : SqVector α) (key : SQNumber) :
    Refines V (some (.get (key.tointeger V.cast).toInt)) a (getIndex V a key) := by
  rw [getIndex]
  cases hget : arrGet V a (key.tointeger V.cast) with
  | none => exact rfl
  | some y =>
    obtain ⟨h0, x, hx, rfl⟩ := exists_of_arrGet_eq_some V hget
    refine ⟨_, rfl, ?_⟩
    rw [Method.listOp, if_pos h0, hx]
    rfl

/-- Writing an index is the method of lists. -/
theorem setIndex_refines (immutable : Bool) (a : SqVector α) (key : SQNumber) (val : α) :
    Refines V (some (.set (key.tointeger V.cast).toInt val)) a
      (setIndex V immutable a key val) := by
  cases immutable with
  | true => exact rfl
  | false =>
    rw [setIndex, if_neg Bool.false_ne_true, arrSet]
    by_cases hlt : (key.tointeger V.cast).toNat < a.size
    · have hin := (toNat_lt_size_iff a _).mp hlt
      have hfits : (a.vals.set (key.tointeger V.cast).toNat val).length ≤ a.allocated.toNat := by
        rw [List.length_set]
        exact a.fits
      obtain ⟨w, hw, hwvals⟩ := SqVector.store_eq_some a hfits
      rw [if_pos hlt, hw]
      refine ⟨_, rfl, ?_⟩
      rw [Method.listOp, ← SqVector.size, if_pos hin, hwvals, toNat_eq_of_nonneg hin.1]
    · rw [if_neg hlt]
      exact rfl

/-- The `int` arithmetic of `swap` does not overflow on an `int` index and a length below `2 ^ 31`. -/
theorem toInt_fromEnd {len : Nat} (hlen : len < 2 ^ 31) {i : SQInteger} (hlo : -2 ^ 31 ≤ i.toInt)
    (hhi : i.toInt < 2 ^ 31) :
    (if 0 ≤ (i.setWidth 32).toInt then i.setWidth 32
      else BitVec.ofNat 32 len + i.setWidth 32).toInt = fromEnd len i.toInt := by
  have hnarrow : (i.setWidth 32).toInt = i.toInt := by
    have hcond := BitVec.toInt_eq_toNat_cond i
    have hlt := i.isLt
    rw [BitVec.toInt_eq_toNat_cond, BitVec.toNat_setWidth]
    split at hcond <;> split <;> omega
  rw [hnarrow, fromEnd]
  by_cases h0 : 0 ≤ i.toInt
  · rw [if_pos h0, if_neg (by omega), hnarrow]
  · have hsize : (BitVec.ofNat 32 len).toInt = len := by
      rw [BitVec.toInt_eq_toNat_cond, BitVec.toNat_ofNat]
      omega
    rw [if_neg h0, if_pos (by omega), BitVec.toInt_add, hsize, hnarrow]
    exact Int.bmod_eq_of_le (by omega) (by omega)

/-- `swap` is the method of lists. -/
theorem arraySwap_refines (immutable : Bool) (a : SqVector α) {key1 key2 : SQNumber}
    (hsize : a.size < 2 ^ 31) (h1 : FitsInt V key1) (h2 : FitsInt V key2) :
    Refines V (some (.swap (fromEnd a.size (key1.tointeger V.cast).toInt)
      (fromEnd a.size (key2.tointeger V.cast).toInt))) a (arraySwap V immutable a key1 key2) := by
  apply refines_checkImmutable
  have hlen : (BitVec.ofNat 32 a.size).toInt = a.size := by
    rw [BitVec.toInt_eq_toNat_cond, BitVec.toNat_ofNat]
    omega
  have hk1 := toInt_fromEnd hsize h1.1 h1.2
  have hk2 := toInt_fromEnd hsize h2.1 h2.2
  simp only [hlen]
  generalize (if 0 ≤ ((key1.tointeger V.cast).setWidth 32).toInt then
    (key1.tointeger V.cast).setWidth 32
    else BitVec.ofNat 32 a.size + (key1.tointeger V.cast).setWidth 32) = k1 at hk1 ⊢
  generalize (if 0 ≤ ((key2.tointeger V.cast).setWidth 32).toInt then
    (key2.tointeger V.cast).setWidth 32
    else BitVec.ofNat 32 a.size + (key2.tointeger V.cast).setWidth 32) = k2 at hk2 ⊢
  rw [← hk1, ← hk2]
  by_cases hrange : (a.size : Int) ≤ k1.toInt ∨ (a.size : Int) ≤ k2.toInt ∨ k1.toInt < 0 ∨
      k2.toInt < 0
  · rw [if_pos hrange]
    exact rfl
  · have hnat1 : k1.toInt.toNat = k1.toNat := by
      have hcond := BitVec.toInt_eq_toNat_cond k1
      split at hcond <;> omega
    have hnat2 : k2.toInt.toNat = k2.toNat := by
      have hcond := BitVec.toInt_eq_toNat_cond k2
      split at hcond <;> omega
    rw [if_neg hrange]
    refine refines_ofVector V
      (SqVector.store_eq_some a (by rw [length_swapCells]; exact a.fits)) ?_
    rw [Method.listOp, ← SqVector.size, if_pos (by omega), hnat1, hnat2]

/-- The list operation of a slice, with both bounds cut off at the length as `clamp_int` does. -/
theorem slice_eq_clamped (xs : List α) (s e : Int) :
    (xs.take (fromEnd xs.length e).toNat).drop (fromEnd xs.length s).toNat =
      (xs.take (sliceBound xs.length e).toNat).drop (sliceBound xs.length s).toNat := by
  have hclamp (v : Int) : (sliceBound xs.length v).toNat = min (fromEnd xs.length v).toNat xs.length := by
    rw [sliceBound, clampInt, ← fromEnd]
    split
    · omega
    · split <;> omega
  apply List.ext_getElem?
  intro k
  rw [hclamp, hclamp, List.getElem?_drop, List.getElem?_drop, List.getElem?_take,
    List.getElem?_take]
  by_cases hin : (fromEnd xs.length s).toNat + k < xs.length
  · rw [Nat.min_eq_left (show (fromEnd xs.length s).toNat ≤ xs.length by omega)]
    by_cases hstop : (fromEnd xs.length s).toNat + k < (fromEnd xs.length e).toNat
    · rw [if_pos hstop, if_pos (by omega)]
    · rw [if_neg hstop, if_neg (by omega)]
  · -- past the end of the list on both sides
    have hl : xs[(fromEnd xs.length s).toNat + k]? = none := List.getElem?_eq_none (by omega)
    rw [hl, ite_self]
    split
    · rename_i hlt
      exact (List.getElem?_eq_none (by omega)).symm
    · rfl

/-- Reading `n` cells one by one from `s` on. -/
theorem filterMap_range'_getElem? (f : α → α) (xs : List α) (s n : Nat) :
    (List.range' s n).filterMap (fun i => xs[i]?.map f) = ((xs.drop s).take n).map f := by
  induction n generalizing s with
  | zero => rfl
  | succ n ih =>
    rw [List.range'_succ, List.filterMap_cons, ih (s + 1)]
    cases hx : xs[s]? with
    | none =>
      have hlen := List.getElem?_eq_none_iff.mp hx
      rw [List.drop_eq_nil_of_le hlen, List.drop_eq_nil_of_le (by omega), List.take_nil,
        List.take_nil]
      rfl
    | some x =>
      obtain ⟨hlt, rfl⟩ := List.getElem?_eq_some_iff.mp hx
      rw [List.drop_eq_getElem_cons hlt]
      rfl

/-- The bound of a slice is in range. -/
theorem sliceBound_bounds (len : Nat) (v : Int) : 0 ≤ sliceBound len v ∧ sliceBound len v ≤ len := by
  rw [sliceBound, clampInt]
  split
  · omega
  · split <;> omega

theorem arrGet_ofNat (a : SqVector α) {i : Nat} (hi : i < 2 ^ 32) :
    arrGet V a (BitVec.ofNat 64 i) = a.vals[i]?.map V.realval := by
  have hint := toInt_ofNat_size hi
  rw [arrGet_eq, hint, if_pos (by omega), Int.toNat_natCast]

/-- `slice` is the method of lists. -/
theorem arraySlice_refines (a : SqVector α) (start stop : Option SQNumber) :
    Refines V (some (.slice (start.map fun n => (n.tointeger V.cast).toInt)
      (stop.map fun n => (n.tointeger V.cast).toInt))) a (arraySlice V a start stop) := by
  have hsize := a.size_lt
  have hop := slice_eq_clamped a.vals ((start.map fun n => (n.tointeger V.cast).toInt).getD 0)
    ((stop.map fun n => (n.tointeger V.cast).toInt).getD a.vals.length)
  have hsb := sliceBound_bounds a.size ((start.map fun n => (n.tointeger V.cast).toInt).getD 0)
  have heb := sliceBound_bounds a.size
    ((stop.map fun n => (n.tointeger V.cast).toInt).getD a.size)
  simp only [arraySlice, Refines]
  rw [← SqVector.size] at hop
  generalize hs : sliceBound a.size ((start.map fun n => (n.tointeger V.cast).toInt).getD 0) = sidx
    at hop hsb ⊢
  generalize he : sliceBound a.size ((stop.map fun n => (n.tointeger V.cast).toInt).getD a.size) =
    eidx at hop heb ⊢
  -- an empty slice, or the elements read one after the other
  by_cases hempty : a.size = 0 ∨ eidx ≤ sidx
  · rw [if_pos hempty]
    refine ⟨_, rfl, ?_⟩
    rw [Method.listOp, ← SqVector.size, hop, List.drop_eq_nil_of_le]
    · rfl
    · rw [List.length_take]
      omega
  · rw [if_neg hempty]
    refine ⟨_, rfl, ?_⟩
    have hcount : eidx.toNat - sidx.toNat = (eidx - sidx).toNat := by omega
    have hread : (List.range' sidx.toNat (eidx - sidx).toNat).filterMap
        (fun i => arrGet V a (BitVec.ofNat 64 i)) =
        ((a.vals.drop sidx.toNat).take (eidx - sidx).toNat).map V.realval := by
      rw [← filterMap_range'_getElem?]
      apply List.filterMap_congr
      intro i hi
      have hmem := List.mem_range'_1.mp hi
      exact arrGet_ofNat V a (by omega)
    have hlen : (List.replicate (eidx - sidx).toNat V.null).length =
        (((a.vals.drop sidx.toNat).take (eidx - sidx).toNat).map V.realval).length := by
      rw [List.length_replicate, List.length_map, List.length_take, List.length_drop,
        ← SqVector.size]
      omega
    have hfill := setFrom_append [] hlen
    rw [Method.listOp, ← SqVector.size, hop, List.drop_take, hcount, hread]
    exact congrArg (fun vals => some (Ret.newArray vals, a.vals)) hfill.symm

/-! ## All methods -/

/-- Every method is the method of lists. -/
theorem call_refines (immutable : Bool) (a : SqVector α) (m : Method α SQNumber)
    (h : m.Fits V a.size) :
    Refines V (some (m.read V a.size)) a (m.call V immutable a) := by
  cases m with
  | append items => exact arrayAppend_refines V immutable a items h
  | extend sources =>
    apply refines_checkImmutable
    obtain ⟨w, hw, hop⟩ := extendAll_eq_some V a sources h
    exact refines_ofVector V ⟨w, hw, rfl⟩ hop
  | reverse => exact arrayReverse_refines V immutable a
  | pop => exact arrayPop_refines V immutable a
  | insert idx val => exact arrayInsert_refines V immutable a idx val h
  | remove idx => exact arrayRemove_refines V immutable a idx
  | resize size fill => exact arrayResize_refines V immutable a size fill h
  | slice start stop => exact arraySlice_refines V a start stop
  | swap key1 key2 => exact arraySwap_refines V immutable a h.1 h.2.1 h.2.2
  | get key => exact getIndex_refines V a key
  | set key val => exact setIndex_refines V immutable a key val

/-- A new array has the requested number of cells, all of them the fill. -/
theorem builtinArrayCtor_refines (size : SQNumber) (fill : Option α)
    (h : (size.tointeger V.cast).toInt < 2 ^ 32) :
    Refines V (some (.resize (size.tointeger V.cast).toInt fill)) .empty
      (builtinArrayCtor V size fill) := by
  unfold builtinArrayCtor
  by_cases hneg : (size.tointeger V.cast).toInt < 0
  · simp only [if_pos hneg]
    exact rfl
  · have h0 : 0 ≤ (size.tointeger V.cast).toInt := by omega
    have hop (fill : Option α) :
        (Method.resize (size.tointeger V.cast).toInt fill).listOp V ([] : List α) =
          some (.self, List.take (size.tointeger V.cast).toInt.toNat [] ++
            List.replicate ((size.tointeger V.cast).toInt.toNat - 0) (fill.getD V.null)) := by
      rw [Method.listOp, if_pos h0]
      rfl
    simp only [if_neg hneg]
    cases fill with
    | none =>
      have hres := (SqVector.empty (α := α)).resize_eq_some (sizeType (size.tointeger V.cast)) V.null
      rw [toNat_sizeType h0 h] at hres
      exact refines_ofVector V hres (hop none)
    | some fill =>
      exact refines_ofVector V (arrResize_eq_some .empty fill h0 h) (hop (some fill))

/-- Array methods, indexing and the array constructor are operations on lists, where sizes and the
indices of `swap` fit in their types; a resized array has the requested length. -/
theorem methods_refine_lists (immutable : Bool) (a : SqVector α) :
    (∀ m : Method α SQNumber, m.Fits V a.size →
      Refines V (some (m.read V a.size)) a (m.call V immutable a)) ∧
    (∀ (size : SQNumber) (fill : Option α), (size.tointeger V.cast).toInt < 2 ^ 32 →
      Refines V (some (.resize (size.tointeger V.cast).toInt fill)) .empty
        (builtinArrayCtor V size fill)) ∧
    (∀ (size : SQNumber) (fill : Option α) (ret : Ret α) (b : SqVector α),
      (size.tointeger V.cast).toInt < 2 ^ 32 →
      Method.call V immutable a (.resize size fill) = .ok ret b →
      (b.size : Int) = (size.tointeger V.cast).toInt) := by
  refine ⟨call_refines V immutable a, builtinArrayCtor_refines V, ?_⟩
  intro size fill ret b h hcall
  have href := arrayResize_refines V immutable a size fill h
  have hres : arrayResize V immutable a size fill = .ok ret b := hcall
  rw [hres] at href
  obtain ⟨m, hm, hop⟩ := href
  cases hm
  rw [Method.listOp] at hop
  split at hop
  · have hlen : (_ ++ _ : List α).length = b.vals.length :=
      congrArg (fun r => r.2.length) (Option.some.inj hop)
    rw [List.length_append, List.length_take, List.length_replicate] at hlen
    rw [SqVector.size]
    omega
  · cases hop

/-- Numbers as elements; the float conversion out of range is the one of an x86 machine. -/
def natValues : Values Nat :=
  ⟨0, id, fun _ => BitVec.intMin 64⟩

/-- The array `[10, 20]` in four cells. -/
def twoCells : SqVector Nat :=
  ⟨[10, 20], 4#32, by decide⟩

/-- An insertion into two cells. -/
theorem methods_refine_lists_insert :
    Refines natValues (some (.insert 1 15)) twoCells
      (Method.call natValues false twoCells (.insert (.integer 1) 15)) :=
  (methods_refine_lists natValues false twoCells).1 (.insert (.integer 1) 15)
    (show 2 + 1 < 2 ^ 32 by decide)

/-! ## Arguments that are not exact -/

/-- The integer that a number is. -/
def SQNumber.exact : SQNumber → Option Int
  | .integer i => some i.toInt
  | .float f =>
    let n := f.unpack.toInt (-2 ^ 63 - 1) (2 ^ 63)
    if (Float32.Model.ofInt n == f) = true then some n else none

/-- The method with the integers that its numbers are. -/
def Method.exact : Method α SQNumber → Option (Method α Int)
  | .append items => some (.append items)
  | .extend sources => some (.extend sources)
  | .reverse => some .reverse
  | .pop => some .pop
  | .insert idx val => do return .insert (← idx.exact) val
  | .remove idx => do return .remove (← idx.exact)
  | .resize size fill => do return .resize (← size.exact) fill
  | .slice start stop => do
    return .slice (← start.mapM SQNumber.exact) (← stop.mapM SQNumber.exact)
  | .swap key1 key2 => do return .swap (← key1.exact) (← key2.exact)
  | .get key => do return .get (← key.exact)
  | .set key val => do return .set (← key.exact) val

/-- `0.5` -/
def oneHalf : SQNumber :=
  .float (Float32.Model.ofInt 1 / Float32.Model.ofInt 2)

/-- A call that succeeds without the effect of `op`. -/
theorem not_refines_of_ok {op : Option (Method α Int)} {a b : SqVector α} {ret : Ret α}
    (h : ∀ m, op = some m → (m.listOp V a.vals).map (·.2) ≠ some b.vals) :
    ¬ Refines V op a (.ok ret b) := by
  rintro ⟨m, hm, hop⟩
  exact h m hm (by rw [hop]; rfl)

/-- `insert(0.5, x)` inserts at `0`, `swap(-1, 0)` exchanges the ends, and `resize(4294967296)`
empties the array. -/
theorem exact_reading_fails :
    ¬ Refines natValues (Method.insert oneHalf 15).exact twoCells
        (Method.call natValues false twoCells (.insert oneHalf 15)) ∧
      ¬ Refines natValues (Method.swap (.integer (-1)) (.integer 0)).exact twoCells
        (Method.call natValues false twoCells (.swap (.integer (-1)) (.integer 0))) ∧
      ¬ Refines natValues (Method.resize (.integer 4294967296) none).exact twoCells
        (Method.call natValues false twoCells (.resize (.integer 4294967296) none)) := by
  refine ⟨?_, ?_, ?_⟩
  · apply not_refines_of_ok
    decide
  · apply not_refines_of_ok
    decide
  · apply not_refines_of_ok
    decide

end Quirrel.Array
