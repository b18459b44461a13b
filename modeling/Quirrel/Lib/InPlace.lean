import Mathlib.Data.List.Basic
import Mathlib.Data.List.Range

/-!
# Array loops in place

Loops that rewrite the cells of an array one by one, and the list operations they amount to: moving
cells up by one place before an insertion (`insert_shiftUp`), exchanging the ends of an array
(`swapEnds_eq_reverse`), and storing values into consecutive cells (`setFrom_append`). Each loop is
described cell by cell, by induction on the steps it has made.
-/

set_option autoImplicit false

namespace Quirrel.Lib

variable {α : Type}

/-! ## Moving cells up -/

/-- `for (k = i; k > lo; k--) a[k] = a[k - 1]` -/
def shiftUp (a : List α) (lo : Nat) : Nat → List α
  | 0 => a
  | i + 1 =>
    if lo < i + 1 then
      match a[i]? with
      | some x => shiftUp (a.set (i + 1) x) lo i
      | none => a
    else a

theorem getElem?_shiftUp (lo k : Nat) {i : Nat} {a : List α} (hi : i < a.length) :
    (shiftUp a lo i)[k]? = if lo < k ∧ k ≤ i then a[k - 1]? else a[k]? := by
  induction i generalizing a with
  | zero =>
    rw [shiftUp, if_neg]
    omega
  | succ i ih =>
    have hcell : a[i]? = some a[i] := List.getElem?_eq_getElem (by omega)
    rw [shiftUp]
    by_cases hlo : lo < i + 1
    · simp only [if_pos hlo, hcell]
      rw [ih (by rw [List.length_set]; omega)]
      by_cases hk : lo < k ∧ k ≤ i
      · -- below the cell just written
        rw [if_pos hk, if_pos ⟨hk.1, by omega⟩, List.getElem?_set_ne (by omega)]
      · rw [if_neg hk]
        by_cases htop : k = i + 1
        · subst htop
          rw [if_pos ⟨hlo, Nat.le_refl _⟩, List.getElem?_set_self hi]
          exact hcell.symm
        · rw [if_neg (by omega), List.getElem?_set_ne (by omega)]
    · rw [if_neg hlo, if_neg (by omega)]

theorem length_shiftUp (a : List α) (lo i : Nat) : (shiftUp a lo i).length = a.length := by
  induction i generalizing a with
  | zero => rfl
  | succ i ih =>
    rw [shiftUp]
    split
    · split
      · rw [ih, List.length_set]
      · rfl
    · rfl

/-- One cell more at the end, the cells from `lo` on moved up, and `x` stored at `lo`. -/
theorem insert_shiftUp {xs : List α} {lo : Nat} (hlo : lo ≤ xs.length) (spare x : α) :
    (shiftUp (xs ++ [spare]) lo xs.length).set lo x = xs.insertIdx lo x := by
  have hlen : (xs ++ [spare]).length = xs.length + 1 := by simp
  apply List.ext_getElem?
  intro k
  have hshift := getElem?_shiftUp (a := xs ++ [spare]) (i := xs.length) lo k (by omega)
  by_cases hk : k = lo
  · subst hk
    rw [List.getElem?_set_self (by rw [length_shiftUp]; omega), List.getElem?_insertIdx_self,
      if_pos hlo]
  · rw [List.getElem?_set_ne (Ne.symm hk), hshift]
    rcases Nat.lt_or_gt_of_ne hk with hlt | hgt
    · rw [if_neg (by omega), List.getElem?_insertIdx_of_lt hlt, List.getElem?_append_left (by omega)]
    · rw [List.getElem?_insertIdx_of_gt hgt]
      by_cases hin : k ≤ xs.length
      · rw [if_pos ⟨hgt, hin⟩, List.getElem?_append_left (by omega)]
      · rw [if_neg (by omega), List.getElem?_eq_none (by omega), List.getElem?_eq_none (by omega)]

/-! ## Exchanging cells -/

/-- `_Swap(a[i], a[j])` -/
def swapCells (a : List α) (i j : Nat) : List α :=
  match a[i]?, a[j]? with
  | some x, some y => (a.set i y).set j x
  | _, _ => a

theorem length_swapCells (a : List α) (i j : Nat) : (swapCells a i j).length = a.length := by
  rw [swapCells]
  split
  · rw [List.length_set, List.length_set]
  · rfl

theorem getElem?_swapCells {a : List α} {i j : Nat} (hi : i < a.length) (hj : j < a.length)
    (k : Nat) :
    (swapCells a i j)[k]? = if k = j then a[i]? else if k = i then a[j]? else a[k]? := by
  have hx : a[i]? = some a[i] := List.getElem?_eq_getElem hi
  have hy : a[j]? = some a[j] := List.getElem?_eq_getElem hj
  simp only [swapCells, hx, hy]
  by_cases hkj : k = j
  · subst hkj
    rw [if_pos rfl, List.getElem?_set_self (by rw [List.length_set]; omega)]
  · rw [if_neg hkj, List.getElem?_set_ne (Ne.symm hkj)]
    by_cases hki : k = i
    · subst hki
      rw [if_pos rfl, List.getElem?_set_self hi]
    · rw [if_neg hki, List.getElem?_set_ne (Ne.symm hki)]

/-- `for (i = 0; i < n; i++) swap(a[i], a[last - i])` -/
def swapEnds (last : Nat) (a : List α) : Nat → List α
  | 0 => a
  | n + 1 => swapCells (swapEnds last a n) n (last - n)

theorem length_swapEnds (last : Nat) (a : List α) (n : Nat) :
    (swapEnds last a n).length = a.length := by
  induction n with
  | zero => rfl
  | succ n ih => rw [swapEnds, length_swapCells, ih]

/-- After `n` steps the `n` outermost cells at both ends are exchanged. -/
theorem getElem?_swapEnds {a : List α} {last n k : Nat} (hlast : last + 1 = a.length)
    (hn : 2 * n ≤ last + 1) (hk : k ≤ last) :
    (swapEnds last a n)[k]? = if k < n ∨ last < k + n then a[last - k]? else a[k]? := by
  induction n generalizing k with
  | zero => rw [swapEnds, if_neg (by omega)]
  | succ n ih =>
    have hleft : n < (swapEnds last a n).length := by rw [length_swapEnds]; omega
    have hright : last - n < (swapEnds last a n).length := by rw [length_swapEnds]; omega
    rw [swapEnds, getElem?_swapCells hleft hright]
    -- the two cells of this step are still as they were at the start
    have hfirst := ih (by omega) (k := n) (by omega)
    have hsecond := ih (by omega) (k := last - n) (by omega)
    rw [if_neg (by omega)] at hfirst hsecond
    by_cases hkr : k = last - n
    · subst hkr
      rw [if_pos rfl, hfirst, if_pos (by omega)]
      congr 1
      omega
    · rw [if_neg hkr]
      by_cases hkn : k = n
      · subst hkn
        rw [if_pos rfl, hsecond, if_pos (by omega)]
      · rw [if_neg hkn, ih (by omega) hk]
        by_cases hout : k < n ∨ last < k + n
        · rw [if_pos hout, if_pos (by omega)]
        · rw [if_neg hout, if_neg (by omega)]

/-- Half as many steps as there are cells reverse the array. -/
theorem swapEnds_eq_reverse {a : List α} (ha : a ≠ []) :
    swapEnds (a.length - 1) a (a.length / 2) = a.reverse := by
  have hpos : 0 < a.length := List.length_pos_of_ne_nil ha
  apply List.ext_getElem?
  intro k
  by_cases hk : k < a.length
  · rw [getElem?_swapEnds (by omega) (by omega) (by omega), List.getElem?_reverse hk]
    by_cases hout : k < a.length / 2 ∨ a.length - 1 < k + a.length / 2
    · rw [if_pos hout]
    · -- only the middle cell of an odd length is left, and it is its own mirror image
      rw [if_neg hout]
      congr 1
      omega
  · rw [List.getElem?_eq_none (by rw [length_swapEnds]; omega),
      List.getElem?_eq_none (by rw [List.length_reverse]; omega)]

/-! ## Storing into consecutive cells -/

/-- `for (k = 0; k < n; k++) a[offs + k] = items[k]` -/
def setFrom (a : List α) (offs : Nat) : List α → List α
  | [] => a
  | x :: items => setFrom (a.set offs x) (offs + 1) items

theorem setFrom_append (front : List α) {spare items : List α} (hlen : spare.length = items.length) :
    setFrom (front ++ spare) front.length items = front ++ items := by
  induction items generalizing front spare with
  | nil =>
    have hspare : spare = [] := List.eq_nil_of_length_eq_zero hlen
    rw [setFrom, hspare]
  | cons x items ih =>
    obtain ⟨y, rest, rfl⟩ := List.exists_cons_of_length_eq_add_one hlen
    have hset : (front ++ y :: rest).set front.length x = (front ++ [x]) ++ rest := by
      simp
    rw [setFrom, hset]
    have hlong : (front ++ [x]).length = front.length + 1 := by simp
    rw [← hlong, ih _ (by simpa using hlen), List.append_assoc]
    rfl

end Quirrel.Lib
