import Mathlib.Algebra.Group.Int.Defs
import Mathlib.Algebra.GroupWithZero.Nat
import Mathlib.Data.List.Nodup
import Mathlib.Logic.Function.Basic

/-!
# Numbering by words

The elements of a list without duplicates, numbered from the first one by words of 32 bits. An
element at the end gets the next number and leaves the others alone (`update_numberOf`).
-/

set_option autoImplicit false

namespace Quirrel.Lib

variable {α : Type} [BEq α] [LawfulBEq α] {l : List α} {a b : α}

/-- The number that the first occurrence of an element got. -/
def numberOf (l : List α) (a : α) : Option UInt32 :=
  if a ∈ l then some (UInt32.ofNat (l.idxOf a)) else none

@[simp]
theorem numberOf_nil (a : α) : numberOf [] a = none := if_neg List.not_mem_nil

theorem numberOf_of_mem (h : a ∈ l) : numberOf l a = some (UInt32.ofNat (l.idxOf a)) := if_pos h

theorem numberOf_eq_none : numberOf l a = none ↔ a ∉ l := by
  unfold numberOf
  split
  · rename_i h
    exact iff_of_false nofun fun hn => hn h
  · rename_i h
    exact iff_of_true rfl h

theorem numberOf_eq_some {i : UInt32} :
    numberOf l a = some i ↔ a ∈ l ∧ i = UInt32.ofNat (l.idxOf a) := by
  unfold numberOf
  split
  · rename_i h
    rw [Option.some.injEq, eq_comm, and_iff_right h]
  · rename_i h
    exact iff_of_false nofun fun hn => h hn.1

theorem numberOf_snoc_self (h : a ∉ l) :
    numberOf (l ++ [a]) a = some (UInt32.ofNat l.length) := by
  rw [numberOf_of_mem (List.mem_append_right l (List.mem_singleton.2 rfl)),
    List.idxOf_append_of_notMem h, List.idxOf_cons_self, Nat.add_zero]

theorem numberOf_snoc_of_ne (hne : b ≠ a) : numberOf (l ++ [a]) b = numberOf l b := by
  by_cases hb : b ∈ l
  · rw [numberOf_of_mem (List.mem_append_left [a] hb), numberOf_of_mem hb,
      List.idxOf_append_of_mem hb]
  · rw [numberOf_eq_none.2 hb, numberOf_eq_none, List.mem_append, List.mem_singleton]
    exact fun h => h.elim hb hne

theorem update_numberOf [DecidableEq α] (h : a ∉ l) :
    Function.update (numberOf l) a (some (UInt32.ofNat l.length)) = numberOf (l ++ [a]) := by
  funext b
  by_cases heq : b = a
  · rw [heq, Function.update_self, numberOf_snoc_self h]
  · rw [Function.update_of_ne heq, numberOf_snoc_of_ne heq]

omit [BEq α] [LawfulBEq α] in
/-- The counter that gave the numbers. -/
theorem ofNat_length_snoc (l : List α) (a : α) :
    UInt32.ofNat (l ++ [a]).length = UInt32.ofNat l.length + 1 := by
  rw [List.length_append, List.length_singleton, UInt32.ofNat_add]
  rfl

/-- The element that has the number is found under it, while the numbers last. -/
theorem getElem?_of_numberOf {i : UInt32} (h : numberOf l a = some i) (hl : l.length ≤ 2 ^ 32) :
    l[i.toNat]? = some a := by
  obtain ⟨hmem, rfl⟩ := numberOf_eq_some.1 h
  have hlt := List.idxOf_lt_length_iff.2 hmem
  rw [UInt32.toNat_ofNat', Nat.mod_eq_of_lt (by omega), List.getElem?_eq_getElem hlt,
    List.getElem_idxOf hlt]

end Quirrel.Lib
