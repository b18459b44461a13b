import Mathlib.Data.List.Perm.Basic
import Quirrel.Array.Sort
import Quirrel.Lib.Heap
import Quirrel.Vm.CompareOrder

/-!
# What `array.sort` does

Whatever the compare function answers, as long as it leaves the array alone, the sort ends with the
cells of the array rearranged. If its answers, taken as integers, are those of a total preorder on
the elements, the sort succeeds and the cells are in order (`arraySort_sorts`). An answer between
`-1` and `1` is an integer zero, so a comparison whose answers have the right sign does not suffice
(`arraySort_fraction`).

The postconditions say both things at once: `ordered` stands for the assumption about the order, and
a computation ends in an error only without it.
-/

set_option autoImplicit false

namespace Quirrel.Array

open Quirrel.Lib Quirrel.Lib.Fallible Quirrel.Vm

variable {W : Type}

/-! ## Comparisons -/

/-- The cells and their address are the same. -/
def SameCells (s s' : SortState W) : Prop :=
  s'.values = s.values ∧ s'.cells = s.cells

/-- The script code that comparisons run does not modify the array. -/
structure Comparer.LeavesArray (C : Comparer W) (func : SQObject) : Prop where
  call : ∀ a b s, SameCells s (C.call func a b s).2
  callMetaMethod : ∀ closure a b s, SameCells s (C.callMetaMethod closure a b s).2

/-- The comparison answers the number `n` in the state `s`. -/
def Comparer.Answers (C : Comparer W) (func a b : SQObject) (s : SortState W) (n : SQNumber)
    (s' : SortState W) : Prop :=
  if func = .null then ∃ i, C.objCmp a b s = (.ok i, s') ∧ n = .integer i
  else ∃ out, C.call func a b s = (.ok out, s') ∧ numberOf out = some n

/-- The elements are those of `s₀` in another order. -/
def Rearranged (s₀ s : SortState W) : Prop :=
  s.values.Perm s₀.values ∧ s.cells = s₀.cells

/-- Wherever the sort of `s₀` can call it, the comparison answers a number, and with `read` for the
number that is the order `le`, a total preorder on the elements. What the comparison needs besides
the array is `I`. -/
structure Comparer.Orders (C : Comparer W) (read : SQNumber → Int) (func : SQObject)
    (s₀ : SortState W) (I : W → Prop) (le : SQObject → SQObject → Prop) : Prop where
  total : ∀ a ∈ s₀.values, ∀ b ∈ s₀.values, le a b ∨ le b a
  trans : ∀ a ∈ s₀.values, ∀ b ∈ s₀.values, ∀ c ∈ s₀.values, le a b → le b c → le a c
  answers : ∀ s, Rearranged s₀ s → I s.world → ∀ a ∈ s₀.values, ∀ b ∈ s₀.values,
    ∃ n s', C.Answers func a b s n s' ∧ I s'.world ∧
      (0 < read n ↔ ¬ le a b) ∧ (read n < 0 ↔ ¬ le b a)

/-- The number as `_sort_compare` takes it. -/
def Comparer.asInteger (C : Comparer W) (n : SQNumber) : Int := (n.tointeger C.cast).toInt

section Sorting

variable {C : Comparer W} {func : SQObject} {s₀ : SortState W} {I : W → Prop}
  {le : SQObject → SQObject → Prop} {ordered : Prop}

/-- The states of the sort. -/
structure Sorting (s₀ : SortState W) (I : W → Prop) (ordered : Prop) (s : SortState W) : Prop where
  rearranged : Rearranged s₀ s
  world : ordered → I s.world

/-- An error of the sort. -/
structure Failed (s₀ : SortState W) (ordered : Prop) (e : Stop) (s : SortState W) : Prop where
  raised : e ≠ .fault
  rearranged : Rearranged s₀ s
  unordered : ¬ ordered

/-- A sort in which nothing is promised may fail anywhere. -/
theorem Sorting.failed {s : SortState W} (h : Sorting s₀ I ordered s) {e : LastError}
    (ho : ¬ ordered) : Failed s₀ ordered (.raised e) s :=
  ⟨nofun, h.rearranged, ho⟩

/-- Calls that leave the cells alone leave them rearranged. -/
theorem Rearranged.sameCells {s s' : SortState W} (h : Rearranged s₀ s) (hs : SameCells s s') :
    Rearranged s₀ s' := by
  refine ⟨?_, hs.2.trans h.2⟩
  rw [hs.1]
  exact h.1

/-- What a comparison of `a` with `b` leaves. -/
structure AfterCompare (s₀ : SortState W) (I : W → Prop) (le : SQObject → SQObject → Prop)
    (ordered : Prop) (a b : SQObject) (s : SortState W) (ret : SQInteger) (s' : SortState W) :
    Prop where
  sorting : Sorting s₀ I ordered s'
  same : s'.values = s.values
  sign : ordered → (0 < ret.toInt ↔ ¬ le a b) ∧ (ret.toInt < 0 ↔ ¬ le b a)

/-- A comparison leaves the cells alone when the callback does. -/
theorem objCmp_sameCells (hleaves : C.LeavesArray func) (a b : SQObject) (s : SortState W) :
    SameCells s (C.objCmp a b s).2 := by
  rw [Comparer.objCmp]
  split
  · exact ⟨rfl, rfl⟩
  · exact ⟨rfl, rfl⟩
  · rename_i closure o1 o2 _
    have hcall := hleaves.callMetaMethod closure o1 o2 s
    split <;> rename_i heq <;> rw [heq] at hcall <;> exact hcall
  · exact ⟨rfl, rfl⟩

/-- The comparison itself, whose answer is not a number only where there is no order. -/
theorem sortCompare_ensures (hleaves : C.LeavesArray func)
    (hord : ordered → C.Orders C.asInteger func s₀ I le) {s : SortState W}
    (h : Sorting s₀ I ordered s) {a b : SQObject} (ha : a ∈ s.values) (hb : b ∈ s.values) :
    Ensures (C.sortCompare func a b) s (Failed s₀ ordered) (AfterCompare s₀ I le ordered a b s) := by
  have hanswer : ordered → ∃ n s', C.Answers func a b s n s' ∧ I s'.world ∧
      (0 < C.asInteger n ↔ ¬ le a b) ∧ (C.asInteger n < 0 ↔ ¬ le b a) := fun ho =>
    (hord ho).answers s h.rearranged (h.world ho) a (h.rearranged.1.mem_iff.1 ha) b
      (h.rearranged.1.mem_iff.1 hb)
  rw [Comparer.sortCompare]
  by_cases hfunc : func = .null
  · simp only [Comparer.Answers, if_pos hfunc] at hanswer
    rw [if_pos hfunc]
    apply Ensures.bind
    apply Ensures.modifyGet
    have hsame := objCmp_sameCells hleaves a b s
    rcases hr : C.objCmp a b s with ⟨r, s'⟩
    rw [hr] at hsame hanswer
    have hre := h.rearranged.sameCells hsame
    cases r with
    | error e =>
      refine Ensures.throw ⟨nofun, hre, fun ho => ?_⟩
      obtain ⟨n, s'', ⟨i, heq, -⟩, -⟩ := hanswer ho
      cases heq
    | ok r =>
      have hkey : ordered → I s'.world ∧ (0 < r.toInt ↔ ¬ le a b) ∧ (r.toInt < 0 ↔ ¬ le b a) := by
        intro ho
        obtain ⟨n, s'', ⟨i, heq, rfl⟩, hI, hsign⟩ := hanswer ho
        cases heq
        exact ⟨hI, hsign⟩
      exact Ensures.pure ⟨⟨hre, fun ho => (hkey ho).1⟩, hsame.1, fun ho => (hkey ho).2⟩
  · simp only [Comparer.Answers, if_neg hfunc] at hanswer
    rw [if_neg hfunc]
    apply Ensures.bind
    apply Ensures.get
    apply Ensures.bind
    apply Ensures.modifyGet
    have hsame := hleaves.call a b s
    rcases hr : C.call func a b s with ⟨r, s'⟩
    rw [hr] at hsame hanswer
    have hre := h.rearranged.sameCells hsame
    cases r with
    | error e =>
      refine Ensures.throw ⟨nofun, hre, fun ho => ?_⟩
      obtain ⟨n, s'', ⟨out, heq, -⟩, -⟩ := hanswer ho
      cases heq
    | ok out =>
      dsimp only
      cases hn : numberOf out with
      | none =>
        refine Ensures.throw ⟨nofun, hre, fun ho => ?_⟩
        obtain ⟨n, s'', ⟨out', heq, hnum⟩, -⟩ := hanswer ho
        cases heq
        rw [hn] at hnum
        cases hnum
      | some n =>
        have hkey : ordered → I s'.world ∧ (0 < C.asInteger n ↔ ¬ le a b) ∧
            (C.asInteger n < 0 ↔ ¬ le b a) := by
          intro ho
          obtain ⟨n', s'', ⟨out', heq, hnum⟩, hI, hsign⟩ := hanswer ho
          cases heq
          rw [hn] at hnum
          cases hnum
          exact ⟨hI, hsign⟩
        apply Ensures.bind
        apply Ensures.get
        rw [if_neg]
        · exact Ensures.pure ⟨⟨hre, fun ho => (hkey ho).1⟩, hsame.1, fun ho => (hkey ho).2⟩
        · -- the array has the size and the cells that it had before the call
          rw [hsame.1, hsame.2]
          simp

/-! ## Cells -/

/-- The cells by their indices. -/
def SortState.at (s : SortState W) (i : Nat) : SQObject := s.values.getD i .null

/-- A cell of the array by its index. -/
theorem getElem?_eq_at {s : SortState W} {i : Nat} (hi : i < s.values.length) :
    s.values[i]? = some (s.at i) := by
  rw [SortState.at, List.getD_eq_getElem?_getD, List.getElem?_eq_getElem hi]
  rfl

theorem at_eq_getElem {s : SortState W} {i : Nat} (hi : i < s.values.length) :
    s.at i = s.values[i] :=
  Option.some.inj ((getElem?_eq_at hi).symm.trans (List.getElem?_eq_getElem hi))

theorem at_mem {s : SortState W} {i : Nat} (hi : i < s.values.length) : s.at i ∈ s.values :=
  List.mem_of_getElem? (getElem?_eq_at hi)

theorem at_congr {s s' : SortState W} (h : s'.values = s.values) : s'.at = s.at := by
  funext i
  rw [SortState.at, h, SortState.at]

theorem cell_ensures {s : SortState W} {i : Nat} (hi : i < s.values.length)
    {E : Stop → SortState W → Prop} {Q : SQObject → SortState W → Prop} (h : Q (s.at i) s) :
    Ensures (cell i) s E Q := by
  rw [cell]
  apply Ensures.bind
  apply Ensures.get
  rw [getElem?_eq_at hi]
  exact Ensures.pure h

/-- The state with two cells exchanged. -/
def SortState.swap (s : SortState W) (i j : Nat) : SortState W :=
  { s with values := (s.values.set i (s.at j)).set j (s.at i) }

theorem swapCells_ensures {s : SortState W} {i j : Nat} (hi : i < s.values.length)
    (hj : j < s.values.length) {E : Stop → SortState W → Prop} {Q : Unit → SortState W → Prop}
    (h : Q () (s.swap i j)) : Ensures (swapCells i j) s E Q :=
  Ensures.bind (cell_ensures hi (Ensures.bind (cell_ensures hj (Ensures.bind (Ensures.get
    (Ensures.set h))))))

/-- After a swap the cells are read through the swap. -/
theorem swap_at {s : SortState W} {i j : Nat} (hi : i < s.values.length)
    (hj : j < s.values.length) : (s.swap i j).at = s.at ∘ Equiv.swap i j := by
  funext k
  have hat : (s.swap i j).at k = ((s.values.set i (s.at j)).set j (s.at i))[k]?.getD .null := by
    rw [← List.getD_eq_getElem?_getD]
    rfl
  rw [hat, Function.comp_apply]
  by_cases hkj : k = j
  · rw [hkj, List.getElem?_set_self (by rw [List.length_set]; exact hj), Equiv.swap_apply_right]
    rfl
  · rw [List.getElem?_set_ne (Ne.symm hkj)]
    by_cases hki : k = i
    · rw [hki, List.getElem?_set_self hi, Equiv.swap_apply_left]
      rfl
    · rw [List.getElem?_set_ne (Ne.symm hki), Equiv.swap_apply_of_ne_of_ne hki hkj,
        ← List.getD_eq_getElem?_getD]
      rfl

/-- A swap keeps the array a rearrangement of the first one. -/
theorem Sorting.swap {s : SortState W} (h : Sorting s₀ I ordered s) {i j : Nat}
    (hi : i < s.values.length) (hj : j < s.values.length) : Sorting s₀ I ordered (s.swap i j) := by
  have hperm := List.set_set_perm hi hj
  rw [← at_eq_getElem hi, ← at_eq_getElem hj] at hperm
  exact ⟨⟨hperm.trans h.rearranged.1, h.rearranged.2⟩, h.world⟩

/-- The size stays. -/
theorem Sorting.length {s s' : SortState W} (h : Sorting s₀ I ordered s)
    (h' : Sorting s₀ I ordered s') : s'.values.length = s.values.length :=
  h'.rearranged.1.length_eq.trans h.rearranged.1.length_eq.symm

/-- A total preorder is reflexive on the elements. -/
theorem Comparer.Orders.refl (hord : C.Orders C.asInteger func s₀ I le) {s : SortState W}
    (h : Sorting s₀ I ordered s) {i : Nat} (hi : i < s.values.length) : le (s.at i) (s.at i) := by
  have hmem := h.rearranged.1.mem_iff.1 (at_mem hi)
  exact (hord.total _ hmem _ hmem).elim id id

/-- Of two cells one is below the other. -/
theorem Comparer.Orders.le_of_not_le (hord : C.Orders C.asInteger func s₀ I le) {s : SortState W}
    (h : Sorting s₀ I ordered s) {i j : Nat} (hi : i < s.values.length) (hj : j < s.values.length)
    (hnot : ¬ le (s.at i) (s.at j)) : le (s.at j) (s.at i) :=
  (hord.total _ (h.rearranged.1.mem_iff.1 (at_mem hi)) _
    (h.rearranged.1.mem_iff.1 (at_mem hj))).resolve_left hnot

/-- The order is transitive on the cells. -/
theorem Comparer.Orders.trans_at (hord : C.Orders C.asInteger func s₀ I le) {s : SortState W}
    (h : Sorting s₀ I ordered s) {i j k : Nat} (hi : i < s.values.length)
    (hj : j < s.values.length) (hk : k < s.values.length) (hij : le (s.at i) (s.at j))
    (hjk : le (s.at j) (s.at k)) : le (s.at i) (s.at k) :=
  hord.trans _ (h.rearranged.1.mem_iff.1 (at_mem hi)) _ (h.rearranged.1.mem_iff.1 (at_mem hj)) _
    (h.rearranged.1.mem_iff.1 (at_mem hk)) hij hjk

/-! ## Sifting -/

/-- What the choice of a child leaves. -/
structure AfterChild (s₀ : SortState W) (I : W → Prop) (le : SQObject → SQObject → Prop)
    (ordered : Prop) (root bottom : Nat) (s : SortState W) (c : Child root) (s' : SortState W) :
    Prop where
  sorting : Sorting s₀ I ordered s'
  same : s'.values = s.values
  inside : c.1 ≤ bottom
  greatest : ordered → ∀ d, IsChild root d → d ≤ bottom → le (s.at d) (s.at c.1)

/-- The larger child is found. -/
theorem maxChild_ensures (hleaves : C.LeavesArray func)
    (hord : ordered → C.Orders C.asInteger func s₀ I le) {s : SortState W}
    (h : Sorting s₀ I ordered s) {root bottom : Nat} (hroot : root * 2 ≤ bottom)
    (hbottom : bottom < s.values.length) :
    Ensures (C.maxChild func root bottom) s (Failed s₀ ordered)
      (AfterChild s₀ I le ordered root bottom s) := by
  have hleft : root * 2 < s.values.length := by omega
  rw [Comparer.maxChild]
  by_cases honly : root * 2 = bottom
  · -- the second child is beyond the end
    rw [if_pos honly]
    refine Ensures.pure ⟨h, rfl, hroot, fun ho d hd hle => ?_⟩
    have hd' : d = root * 2 := by rcases hd with rfl | rfl <;> omega
    rw [hd']
    exact (hord ho).refl h hleft
  · have hright : root * 2 + 1 < s.values.length := by omega
    rw [if_neg honly]
    refine Ensures.bind (cell_ensures hleft ?_)
    refine Ensures.bind (cell_ensures hright ?_)
    refine Ensures.bind ((sortCompare_ensures hleaves hord h (at_mem hleft) (at_mem hright)).mono
      (fun _ _ => id) ?_)
    intro ret s' hcmp
    by_cases hret : 0 < ret.toInt
    · rw [if_pos hret]
      refine Ensures.pure ⟨hcmp.sorting, hcmp.same, hroot, fun ho d hd _ => ?_⟩
      rcases hd with rfl | rfl
      · exact (hord ho).refl h hleft
      · exact (hord ho).le_of_not_le h hleft hright ((hcmp.sign ho).1.1 hret)
    · rw [if_neg hret]
      refine Ensures.pure ⟨hcmp.sorting, hcmp.same, by show root * 2 + 1 ≤ bottom; omega,
        fun ho d hd _ => ?_⟩
      rcases hd with rfl | rfl
      · exact Classical.not_not.1 fun hn => hret ((hcmp.sign ho).1.2 hn)
      · exact (hord ho).refl h hright

/-- The cells up to `bottom` change places, the others stay. -/
structure Within (bottom : Nat) (s s' : SortState W) : Prop where
  inside : ∀ i ≤ bottom, ∃ j ≤ bottom, s'.at i = s.at j
  beyond : ∀ k, bottom < k → s'.at k = s.at k

theorem Within.of_same {bottom : Nat} {s s' : SortState W} (h : s'.values = s.values) :
    Within bottom s s' :=
  ⟨fun i hi => ⟨i, hi, by rw [at_congr h]⟩, fun k _ => by rw [at_congr h]⟩

/-- Two changes within a range. -/
theorem Within.trans {bottom : Nat} {s s' s'' : SortState W} (h : Within bottom s s')
    (h' : Within bottom s' s'') : Within bottom s s'' := by
  refine ⟨fun i hi => ?_, fun k hk => (h'.beyond k hk).trans (h.beyond k hk)⟩
  obtain ⟨j, hj, hij⟩ := h'.inside i hi
  obtain ⟨k, hk, hjk⟩ := h.inside j hj
  exact ⟨k, hk, hij.trans hjk⟩

theorem swap_le {i j k bottom : Nat} (hi : i ≤ bottom) (hj : j ≤ bottom) (hk : k ≤ bottom) :
    Equiv.swap i j k ≤ bottom := by
  rw [Equiv.swap_apply_def]
  split
  · exact hj
  · split
    · exact hi
    · exact hk

/-- A swap within a range changes nothing outside. -/
theorem Within.swap {bottom i j : Nat} {s : SortState W} (hi : i ≤ bottom) (hj : j ≤ bottom)
    (hbottom : bottom < s.values.length) : Within bottom s (s.swap i j) := by
  have hat : (s.swap i j).at = s.at ∘ Equiv.swap i j := swap_at (by omega) (by omega)
  refine ⟨fun k hk => ⟨Equiv.swap i j k, swap_le hi hj hk, congrFun hat k⟩, fun k hk => ?_⟩
  rw [hat, Function.comp_apply, Equiv.swap_apply_of_ne_of_ne (by omega) (by omega)]

/-- What sifting leaves. -/
structure AfterSift (s₀ : SortState W) (I : W → Prop) (le : SQObject → SQObject → Prop)
    (ordered : Prop) (lo bottom : Nat) (s s' : SortState W) : Prop where
  sorting : Sorting s₀ I ordered s'
  within : Within bottom s s'
  heap : ordered → HeapOn le s'.at lo bottom

/-- What holds after a sift holds after changes below it. -/
theorem AfterSift.of_within {lo bottom : Nat} {s s' s'' : SortState W}
    (h : AfterSift s₀ I le ordered lo bottom s' s'') (hw : Within bottom s s') :
    AfterSift s₀ I le ordered lo bottom s s'' :=
  ⟨h.sorting, hw.trans h.within, h.heap⟩

/-- The fault of the heap moves down until it is mended. -/
theorem hsortSiftDown_ensures (hleaves : C.LeavesArray func)
    (hord : ordered → C.Orders C.asInteger func s₀ I le) {lo bottom : Nat} (n : Nat) :
    ∀ {root : Nat} {s : SortState W}, bottom + 1 - root ≤ n → Sorting s₀ I ordered s → lo ≤ root →
      bottom < s.values.length → (ordered → HeapBut le s.at lo bottom root) →
      Ensures (C.hsortSiftDown func root bottom) s (Failed s₀ ordered) fun _ s' =>
        AfterSift s₀ I le ordered lo bottom s s' := by
  induction n with
  | zero =>
    intro root s hn h hlo hbottom hheap
    rw [Comparer.hsortSiftDown, dif_neg (by omega)]
    refine Ensures.pure ⟨h, Within.of_same rfl, fun ho => (hheap ho).heap fun c hc hle => ?_⟩
    rcases hc with rfl | rfl <;> omega
  | succ n ih =>
    intro root s hn h hlo hbottom hheap
    rw [Comparer.hsortSiftDown]
    by_cases hroot : root * 2 ≤ bottom
    · rw [dif_pos hroot]
      refine Ensures.bind ((maxChild_ensures hleaves hord h hroot hbottom).mono (fun _ _ => id) ?_)
      intro child s₁ hchild
      have hat₁ : s₁.at = s.at := at_congr hchild.same
      have hlen₁ := h.length hchild.sorting
      have hr : root < s₁.values.length := by omega
      have hc : child.1 < s₁.values.length := by have := hchild.inside; omega
      refine Ensures.bind (cell_ensures hr ?_)
      refine Ensures.bind (cell_ensures hc ?_)
      refine Ensures.bind ((sortCompare_ensures hleaves hord hchild.sorting (at_mem hr)
        (at_mem hc)).mono (fun _ _ => id) ?_)
      intro ret s₂ hcmp
      have hat₂ : s₂.at = s.at := (at_congr hcmp.same).trans hat₁
      have hlen₂ := h.length hcmp.sorting
      -- the root is below its larger child: swap the two and go on there
      by_cases hret : ret.toInt < 0
      · rw [if_pos hret]
        by_cases heq : root = child.1
        · -- an element below itself
          rw [dif_pos heq]
          refine Ensures.throw (hcmp.sorting.failed fun ho => ?_)
          have hnot := (hcmp.sign ho).2.1 hret
          rw [← heq] at hnot
          exact hnot ((hord ho).refl hchild.sorting hr)
        · rw [dif_neg heq]
          have hr₂ : root < s₂.values.length := by omega
          have hc₂ : child.1 < s₂.values.length := by have := hchild.inside; omega
          have hmore : root < child.1 := by have := child.2; omega
          apply Ensures.bind
          apply swapCells_ensures hr₂ hc₂
          have hs₃ := hcmp.sorting.swap hr₂ hc₂
          have hlen₃ := h.length hs₃
          have hbut : ordered → HeapBut le (s₂.swap root child.1).at lo bottom child.1 := by
            intro ho
            rw [swap_at hr₂ hc₂, hat₂]
            have hnot := (hcmp.sign ho).2.1 hret
            rw [hat₁] at hnot
            refine (hheap ho).swap (fun i hi => (hord ho).refl h (by omega)) hlo child.2
              (Ne.symm heq) hchild.inside
              ((hord ho).le_of_not_le h (by omega) (by omega) hnot) ?_
            intro d hd hle _
            exact hchild.greatest ho d hd hle
          have hrest := ih (by omega) hs₃ (Nat.le_trans hlo (Nat.le_of_lt hmore)) (by omega) hbut
          refine hrest.mono (fun _ _ => id) fun _ s₄ h₄ => h₄.of_within ?_
          exact (Within.of_same (hcmp.same.trans hchild.same)).trans
            (Within.swap (by omega) hchild.inside (by omega))
      -- the root is not below its larger child, hence below none
      · rw [if_neg hret]
        refine Ensures.pure ⟨hcmp.sorting, Within.of_same (hcmp.same.trans hchild.same), ?_⟩
        intro ho
        rw [hat₂]
        refine (hheap ho).heap fun d hd hle => ?_
        have hle' : le (s.at child.1) (s.at root) := by
          have hsign := (hcmp.sign ho).2
          rw [hat₁] at hsign
          exact Classical.not_not.1 fun hn => hret (hsign.2 hn)
        have hin := hchild.inside
        exact (hord ho).trans_at h (by omega) (by omega) (by omega) (hchild.greatest ho d hd hle) hle'
    -- a root without children is a heap
    · rw [dif_neg hroot]
      refine Ensures.pure ⟨h, Within.of_same rfl, fun ho => (hheap ho).heap fun c hc hle => ?_⟩
      rcases hc with rfl | rfl <;> omega

/-! ## The two loops -/

/-- The first loop builds a heap. -/
theorem buildHeap_ensures (hleaves : C.LeavesArray func)
    (hord : ordered → C.Orders C.asInteger func s₀ I le) {bottom : Nat} (i : Nat) {s : SortState W}
    (h : Sorting s₀ I ordered s) (hbottom : bottom < s.values.length)
    (hheap : ordered → HeapOn le s.at (i + 1) bottom) :
    Ensures (C.buildHeap func bottom i) s (Failed s₀ ordered) fun _ s' =>
      AfterSift s₀ I le ordered 0 bottom s s' := by
  induction i generalizing s with
  | zero =>
    rw [Comparer.buildHeap]
    exact hsortSiftDown_ensures hleaves hord _ (Nat.le_refl _) h (Nat.le_refl _) hbottom
      fun ho => (hheap ho).heapBut
  | succ i ih =>
    rw [Comparer.buildHeap]
    refine Ensures.bind ((hsortSiftDown_ensures hleaves hord _ (Nat.le_refl _) h (Nat.le_refl _)
      hbottom fun ho => (hheap ho).heapBut).mono (fun _ _ => id) fun _ s₁ h₁ => ?_)
    have hlen := h.length h₁.sorting
    exact (ih h₁.sorting (by omega) h₁.heap).mono (fun _ _ => id) fun _ s₂ h₂ =>
      h₂.of_within h₁.within

/-- From the cell `i + 1` on, each cell is above all cells in front of it. -/
def Ascends (le : SQObject → SQObject → Prop) (s : SortState W) (i : Nat) : Prop :=
  ∀ j k, j < k → i < k → k < s.values.length → le (s.at j) (s.at k)

/-- The first cell is exchanged with the last one of the heap, and the rest sifted. -/
theorem ascends_step (hord : C.Orders C.asInteger func s₀ I le) {s s' : SortState W} {i : Nat}
    (h : Sorting s₀ I ordered s) (hi : i + 1 < s.values.length)
    (hheap : HeapOn le s.at 0 (i + 1)) (hasc : Ascends le s (i + 1))
    (hw : Within i (s.swap 0 (i + 1)) s') (hlen : s'.values.length = s.values.length) :
    Ascends le s' i := by
  have hat : (s.swap 0 (i + 1)).at = s.at ∘ Equiv.swap 0 (i + 1) := swap_at (by omega) hi
  -- the cells up to `i + 1` come from the heap
  have hfrom : ∀ j ≤ i, ∃ k ≤ i + 1, s'.at j = s.at k := by
    intro j hj
    obtain ⟨k, hk, hjk⟩ := hw.inside j hj
    refine ⟨Equiv.swap 0 (i + 1) k, swap_le (Nat.zero_le _) (Nat.le_refl _) (by omega), ?_⟩
    rw [hjk, hat, Function.comp_apply]
  have htop : s'.at (i + 1) = s.at 0 := by
    rw [hw.beyond (i + 1) (Nat.lt_succ_self i), hat, Function.comp_apply, Equiv.swap_apply_right]
  have hstay : ∀ k, i + 1 < k → s'.at k = s.at k := by
    intro k hk
    rw [hw.beyond k (by omega), hat, Function.comp_apply,
      Equiv.swap_apply_of_ne_of_ne (by omega) (by omega)]
  intro j k hjk hik hk
  rw [hlen] at hk
  rcases Nat.lt_or_eq_of_le (Nat.succ_le_of_lt hik) with hgt | heq
  · rw [hstay k hgt]
    by_cases hj : j ≤ i
    · obtain ⟨m, hm, hjm⟩ := hfrom j hj
      rw [hjm]
      exact hasc m k (by omega) hgt hk
    · rcases Nat.lt_or_eq_of_le (Nat.succ_le_of_lt (Nat.lt_of_not_le hj)) with hj' | hj'
      · rw [hstay j hj']
        exact hasc j k hjk hgt hk
      · rw [← hj', Nat.succ_eq_add_one, htop]
        exact hasc 0 k (by omega) hgt hk
  · -- the greatest cell of the heap
    rw [← heq, Nat.succ_eq_add_one, htop]
    obtain ⟨m, hm, hjm⟩ := hfrom j (by omega)
    rw [hjm]
    exact hheap.le_root (fun n hn => hord.refl h (by omega))
      (fun a b c ha hb hc => hord.trans_at h (by omega) (by omega) (by omega)) hm

/-- The second loop takes the maxima out, one after the other. -/
theorem takeMaxima_ensures (hleaves : C.LeavesArray func)
    (hord : ordered → C.Orders C.asInteger func s₀ I le) (i : Nat) {s : SortState W}
    (h : Sorting s₀ I ordered s) (hi : i < s.values.length)
    (hheap : ordered → HeapOn le s.at 0 i) (hasc : ordered → Ascends le s i) :
    Ensures (C.takeMaxima func i) s (Failed s₀ ordered) fun _ s' =>
      Sorting s₀ I ordered s' ∧ (ordered → Ascends le s' 0) := by
  induction i generalizing s with
  | zero =>
    rw [Comparer.takeMaxima]
    exact Ensures.pure ⟨h, hasc⟩
  | succ i ih =>
    have h0 : 0 < s.values.length := by omega
    have hs₁ := h.swap h0 hi
    have hlen₁ := h.length hs₁
    rw [Comparer.takeMaxima]
    refine Ensures.bind (swapCells_ensures h0 hi ?_)
    have hbut : ordered → HeapBut le (s.swap 0 (i + 1)).at 0 i 0 := by
      intro ho
      refine ((hheap ho).anti (Nat.le_succ i)).heapBut_root fun j hj hji => ?_
      rw [swap_at h0 hi, Function.comp_apply, Equiv.swap_apply_of_ne_of_ne (by omega) (by omega)]
    refine Ensures.bind ((hsortSiftDown_ensures hleaves hord _ (Nat.le_refl _) hs₁ (Nat.le_refl _)
      (by omega) hbut).mono (fun _ _ => id) fun _ s₂ h₂ => ?_)
    have hlen₂ := h.length h₂.sorting
    exact ih h₂.sorting (by omega) h₂.heap fun ho =>
      ascends_step (hord ho) h hi (hheap ho) (hasc ho) h₂.within hlen₂

/-- Both loops sort the array. -/
theorem hsort_ensures (hleaves : C.LeavesArray func)
    (hord : ordered → C.Orders C.asInteger func s₀ I le) {s : SortState W}
    (h : Sorting s₀ I ordered s) (hsize : 1 < s.values.length) :
    Ensures (C.hsort func) s (Failed s₀ ordered) fun _ s' =>
      Sorting s₀ I ordered s' ∧ (ordered → Ascends le s' 0) := by
  rw [Comparer.hsort]
  apply Ensures.bind
  apply Ensures.get
  refine Ensures.bind ((buildHeap_ensures hleaves hord _ h (by omega)
    fun _ => heapOn_of_lt (by omega)).mono (fun _ _ => id) fun _ s₁ h₁ => ?_)
  have hlen := h.length h₁.sorting
  refine takeMaxima_ensures hleaves hord _ h₁.sorting (by omega) h₁.heap fun _ j k hjk hk hlt => ?_
  omega

/-- An array that ascends is sorted. -/
theorem pairwise_of_ascends {s : SortState W} (h : Ascends le s 0) : s.values.Pairwise le := by
  rw [List.pairwise_iff_getElem]
  intro i j hi hj hij
  rw [← at_eq_getElem hi, ← at_eq_getElem hj]
  exact h i j hij (by omega) hj

/-- The native sorts the array, or ends with an error. -/
theorem arraySort_ensures {args : List SQObject} (hleaves : C.LeavesArray (sortFunc args))
    (immutable : Bool)
    (hord : ordered → immutable = false ∧ C.Orders C.asInteger (sortFunc args) s₀ I le)
    (h : Sorting s₀ I ordered s₀) :
    Ensures (C.arraySort immutable args) s₀ (Failed s₀ ordered) fun ret s' =>
      ret = .self ∧ Sorting s₀ I ordered s' ∧ (ordered → s'.values.Pairwise le) := by
  rw [Comparer.arraySort]
  cases immutable with
  | true => exact Ensures.throw (h.failed fun ho => nomatch (hord ho).1)
  | false =>
    rw [if_neg Bool.false_ne_true]
    apply Ensures.bind
    apply Ensures.get
    by_cases hsize : 1 < s₀.values.length
    · rw [if_pos hsize]
      refine Ensures.bind ((hsort_ensures hleaves (fun ho => (hord ho).2) h hsize).mono
        (fun _ _ => id) fun _ s₁ h₁ => ?_)
      exact Ensures.pure ⟨rfl, h₁.1, fun ho => pairwise_of_ascends (h₁.2 ho)⟩
    · rw [if_neg hsize]
      refine Ensures.bind (Ensures.pure (Ensures.pure ⟨rfl, h, fun _ => ?_⟩))
      refine pairwise_of_ascends fun j k hjk hk hlt => ?_
      omega

end Sorting

/-- **The sort.** It ends, without an access outside the array and with its elements rearranged,
whatever the comparison answers. Where the array is not immutable and the answers, as integers, are
those of a total preorder, it succeeds with the elements in that order. -/
theorem arraySort_sorts (C : Comparer W) (immutable : Bool) (args : List SQObject)
    (s : SortState W) (hleaves : C.LeavesArray (sortFunc args)) :
    ∃ r s', (C.arraySort immutable args).result s = (r, s') ∧ r ≠ .error .fault ∧
      s'.values.Perm s.values ∧
      (immutable = false → ∀ I le, I s.world → C.Orders C.asInteger (sortFunc args) s I le →
        r = .ok .self ∧ s'.values.Pairwise le) := by
  have hstart : ∀ (I : W → Prop) (ordered : Prop), (ordered → I s.world) → Sorting s I ordered s :=
    fun I ordered hI => ⟨⟨List.Perm.refl _, rfl⟩, hI⟩
  rcases hr : (C.arraySort immutable args).result s with ⟨r, s'⟩
  have hends : ∀ (I : W → Prop) (ordered : Prop), (ordered → I s.world) → ∀ le,
      (ordered → immutable = false ∧ C.Orders C.asInteger (sortFunc args) s I le) →
      Ensures (C.arraySort immutable args) s (Failed s ordered) fun ret s' =>
        ret = .self ∧ Sorting s I ordered s' ∧ (ordered → s'.values.Pairwise le) :=
    fun I ordered hI le hord => arraySort_ensures hleaves immutable hord (hstart I ordered hI)
  simp only [Ensures, hr] at hends
  refine ⟨r, s', rfl, ?_⟩
  have hany := hends (fun _ => True) False nofun (fun _ _ => True) nofun
  cases r with
  | ok ret =>
    obtain ⟨rfl, hs', -⟩ := hany
    refine ⟨nofun, hs'.rearranged.1, fun himm I le hI hord => ⟨rfl, ?_⟩⟩
    exact (hends I True (fun _ => hI) le fun _ => ⟨himm, hord⟩).2.2 trivial
  | error e =>
    refine ⟨fun heq => hany.raised (Except.error.inj heq), hany.rearranged.1, ?_⟩
    intro himm I le hI hord
    exact absurd trivial (hends I True (fun _ => hI) le fun _ => ⟨himm, hord⟩).unordered

/-! ## A compare function with fractions -/

/-- The integer that a value is. -/
def integerOf : SQObject → Int
  | .integer i => i.toInt
  | _ => 0

/-- The sign of a number. -/
def SQNumber.sign : SQNumber → Int
  | .integer i => i.toInt.sign
  | .float f => if .ofInt 0 < f then 1 else if f < .ofInt 0 then -1 else 0

/-- The number as an object. -/
def SQNumber.toObject : SQNumber → SQObject
  | .integer i => .integer i
  | .float f => .float f

/-- A comparer with chosen answers for less and more. -/
def answerOf (less more : SQNumber) (a b : SQObject) : SQNumber :=
  if integerOf a < integerOf b then less
  else if integerOf b < integerOf a then more else .integer 0

/-- A machine on which every compare function answers `less`, zero or `more`. -/
def answering (less more : SQNumber) : Comparer Unit where
  ops := bareOps
  cast _ := 0
  callMetaMethod _ _ _ s := (.error (.value .null), s)
  call _ a b s := (.ok (answerOf less more a b).toObject, s)

/-- A comparer that only answers leaves the array alone. -/
theorem answering_leavesArray (less more : SQNumber) (func : SQObject) :
    (answering less more).LeavesArray func :=
  ⟨fun _ _ _ => ⟨rfl, rfl⟩, fun _ _ _ _ => ⟨rfl, rfl⟩⟩

theorem numberOf_toObject (n : SQNumber) : numberOf n.toObject = some n := by
  cases n with
  | integer i => rfl
  | float f => rfl

/-- The answers of this machine are those of the order of the integers. -/
theorem answering_orders {less more : SQNumber} {read : SQNumber → Int} (hless : read less < 0)
    (hmore : 0 < read more) (hzero : read (.integer 0) = 0) {func : SQObject} (hfunc : func ≠ .null)
    (s₀ : SortState Unit) :
    (answering less more).Orders read func s₀ (fun _ => True)
      fun a b => integerOf a ≤ integerOf b where
  total a _ b _ := Int.le_total _ _
  trans a _ b _ c _ := Int.le_trans
  answers s _ _ a _ b _ := by
    refine ⟨answerOf less more a b, s, ?_, trivial, ?_⟩
    · rw [Comparer.Answers, if_neg hfunc]
      exact ⟨_, rfl, numberOf_toObject _⟩
    · rw [answerOf]
      split
      · omega
      · split <;> omega

/-- A script function. -/
def compareFunc : SQObject := .ref .closure 0

theorem compareFunc_ne_null : compareFunc ≠ .null := nofun

/-- Three numbers sorted by a comparer. -/
theorem arraySort_sorts_three :
    ∃ r s', ((answering (.integer (-1)) (.integer 1)).arraySort false [compareFunc]).result
        ⟨[.integer 3, .integer 1, .integer 2], 0, ()⟩ = (r, s') ∧
      r = .ok .self ∧ s'.values.Pairwise fun a b => integerOf a ≤ integerOf b := by
  have hless : (answering (.integer (-1)) (.integer 1)).asInteger (.integer (-1)) < 0 := by decide
  have hmore : 0 < (answering (.integer (-1)) (.integer 1)).asInteger (.integer 1) := by decide
  obtain ⟨r, s', hr, -, -, hsorts⟩ := arraySort_sorts (answering (.integer (-1)) (.integer 1)) false
    [compareFunc] ⟨[.integer 3, .integer 1, .integer 2], 0, ()⟩ (answering_leavesArray _ _ _)
  exact ⟨r, s', hr, hsorts rfl (fun _ => True) _ trivial
    (answering_orders hless hmore rfl compareFunc_ne_null _)⟩

/-- One half, and minus one half. -/
def half : SQNumber := .float (.ofInt 1 / .ofInt 2)

/-- An answer between -1 and 0. -/
def minusHalf : SQNumber := .float (.ofInt (-1) / .ofInt 2)

/-- An immutable array is not sorted at all. And a compare function that answers one half or minus
one half, with the right sign, leaves two elements in the wrong order. -/
theorem arraySort_fraction :
    (((answering (.integer (-1)) (.integer 1)).arraySort true [compareFunc]).result
        ⟨[.integer 1, .integer 0], 0, ()⟩).1 = .error (.raised (.string immutableError)) ∧
      (answering minusHalf half).Orders SQNumber.sign compareFunc
        ⟨[.integer 0, .integer 1], 0, ()⟩ (fun _ => True) (fun a b => integerOf a ≤ integerOf b) ∧
      (((answering minusHalf half).arraySort false [compareFunc]).result
        ⟨[.integer 0, .integer 1], 0, ()⟩).2.values = [.integer 1, .integer 0] := by
  have hless : minusHalf.sign < 0 := by decide
  have hmore : 0 < half.sign := by decide
  refine ⟨rfl, answering_orders hless hmore rfl compareFunc_ne_null _, ?_⟩
  decide +kernel

end Quirrel.Array
