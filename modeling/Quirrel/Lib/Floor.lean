import Mathlib.Algebra.Group.Int.Defs
import Mathlib.Algebra.GroupWithZero.Nat
import Mathlib.Data.List.Basic
import Mathlib.Data.List.Pairwise

/-!
# The last entry not above a value

A list in the order of its keys stands for a step function: `floorEntry` is the last entry whose key
is not above the value. `Spans` says where it is, and how the entries before and behind it compare
with the value, which is what a search goes by.
-/

set_option autoImplicit false

namespace Quirrel.Lib

universe u

variable {α : Type u} (key : α → Nat)

/-- The last entry whose key is not greater than `x`. -/
def floorEntry (x : Int) (xs : List α) : Option α :=
  (xs.filter fun a => decide ((key a : Int) ≤ x)).getLast?

/-- No key is smaller than one before it. -/
def Ascending (xs : List α) : Prop := xs.Pairwise fun a b => key a ≤ key b

/-- The keys up to entry `i` are not above `x`, those behind it are. -/
structure Spans (xs : List α) (x : Int) (i : Nat) : Prop where
  lt_length : i < xs.length
  le : ∀ j a, xs[j]? = some a → j ≤ i → (key a : Int) ≤ x
  lt : ∀ j a, xs[j]? = some a → i < j → x < key a

variable {key} {xs : List α} {x : Int} {i : Nat}

namespace Ascending

theorem le_of_le (h : Ascending key xs) {j k : Nat} {a b : α} (ha : xs[j]? = some a)
    (hb : xs[k]? = some b) (hjk : j ≤ k) : key a ≤ key b := by
  obtain ⟨hj, rfl⟩ := List.getElem?_eq_some_iff.mp ha
  obtain ⟨hk, rfl⟩ := List.getElem?_eq_some_iff.mp hb
  rcases Nat.lt_or_eq_of_le hjk with hlt | rfl
  · exact List.pairwise_iff_getElem.mp h j k hj hk hlt
  · exact Nat.le_refl _

/-- One comparison with the entry and one with the next tell where the value is. -/
theorem spans (h : Ascending key xs) {a : α} (ha : xs[i]? = some a) (hle : (key a : Int) ≤ x)
    (hnext : ∀ b, xs[i + 1]? = some b → x < key b) : Spans key xs x i := by
  have hi : i < xs.length := (List.getElem?_eq_some_iff.mp ha).1
  refine ⟨hi, fun j b hb hji => ?_, fun j b hb hij => ?_⟩
  · have := h.le_of_le hb ha hji
    omega
  · have hj : j < xs.length := (List.getElem?_eq_some_iff.mp hb).1
    have hlt : i + 1 < xs.length := by omega
    have hmid := hnext xs[i + 1] (List.getElem?_eq_getElem hlt)
    have := h.le_of_le (List.getElem?_eq_getElem hlt) hb (by omega)
    omega

/-- The entry that `x` belongs to exists when some entry is not above it. -/
theorem exists_spans (h : Ascending key xs) (hex : ∃ a ∈ xs, (key a : Int) ≤ x) :
    ∃ i, Spans key xs x i := by
  obtain ⟨a, ha, hle⟩ := hex
  obtain ⟨k, hk, rfl⟩ := List.mem_iff_getElem.mp ha
  -- the largest index whose key is not above `x`
  have hbound : ∃ n, xs.length ≤ k + n := ⟨xs.length, by omega⟩
  obtain ⟨n, hn⟩ := hbound
  induction n generalizing k with
  | zero => omega
  | succ n ih =>
    by_cases hstep : ∃ b, xs[k + 1]? = some b ∧ (key b : Int) ≤ x
    · obtain ⟨b, hb, hbx⟩ := hstep
      obtain ⟨hk', rfl⟩ := List.getElem?_eq_some_iff.mp hb
      exact ih (k + 1) hk' (List.getElem_mem hk') hbx (by omega)
    · refine ⟨k, h.spans (List.getElem?_eq_getElem hk) hle fun b hb => ?_⟩
      exact Int.not_le.mp fun hbx => hstep ⟨b, hb, hbx⟩

/-- An entry with a key that is not below the others' is put at the end. -/
theorem concat (h : Ascending key xs) {a : α} (ha : ∀ b ∈ xs, key b ≤ key a) :
    Ascending key (xs ++ [a]) := by
  refine List.pairwise_append.mpr ⟨h, List.pairwise_singleton _ _, fun b hb c hc => ?_⟩
  rw [List.mem_singleton.mp hc]
  exact ha b hb

end Ascending

theorem Spans.floorEntry_eq (h : Spans key xs x i) : floorEntry key x xs = xs[i]? := by
  have hi := h.lt_length
  -- what is up to entry `i` passes the filter, what is behind does not
  have htake : (xs.take (i + 1)).filter (fun a => decide ((key a : Int) ≤ x)) = xs.take (i + 1) := by
    rw [List.filter_eq_self]
    intro a ha
    obtain ⟨j, hj, rfl⟩ := List.mem_take_iff_getElem.mp ha
    exact decide_eq_true (h.le j _ (List.getElem?_eq_getElem (by omega)) (by omega))
  have hdrop : (xs.drop (i + 1)).filter (fun a => decide ((key a : Int) ≤ x)) = [] := by
    rw [List.filter_eq_nil_iff]
    intro a ha
    obtain ⟨j, hj, rfl⟩ := List.mem_drop_iff_getElem.mp ha
    have := h.lt (i + 1 + j) _ (List.getElem?_eq_getElem (by omega)) (by omega)
    simpa using this
  calc floorEntry key x xs
      = ((xs.take (i + 1) ++ xs.drop (i + 1)).filter fun a => decide ((key a : Int) ≤ x)).getLast? := by
        rw [List.take_append_drop, floorEntry]
    _ = (xs.take (i + 1)).getLast? := by rw [List.filter_append, htake, hdrop, List.append_nil]
    _ = xs[i]? := by
        rw [List.getLast?_eq_getElem?, List.length_take, Nat.min_eq_left (by omega),
          Nat.add_sub_cancel, List.getElem?_take_of_lt (Nat.lt_succ_self i)]

theorem Spans.tail {a : α} (h : Spans key (a :: xs) x (i + 1)) : Spans key xs x i where
  lt_length := Nat.lt_of_succ_lt_succ h.lt_length
  le j b hb hj := h.le (j + 1) b hb (Nat.succ_le_succ hj)
  lt j b hb hj := h.lt (j + 1) b hb (Nat.succ_lt_succ hj)

/-- A change of the entries that keeps the keys. -/
theorem Spans.map (h : Spans key xs x i) {f : α → α} (hf : ∀ a ∈ xs, key (f a) = key a) :
    Spans key (xs.map f) x i := by
  refine ⟨by rw [List.length_map]; exact h.lt_length, fun j b hb hj => ?_, fun j b hb hj => ?_⟩
  all_goals
    rw [List.getElem?_map] at hb
    obtain ⟨a, ha, rfl⟩ := Option.map_eq_some_iff.mp hb
    rw [hf a (List.mem_of_getElem? ha)]
  · exact h.le j a ha hj
  · exact h.lt j a ha hj

/-- There is an entry for `x` only if some entry is not above it. -/
theorem exists_le_of_floorEntry {a : α} (h : floorEntry key x xs = some a) :
    ∃ b ∈ xs, (key b : Int) ≤ x := by
  have hmem := List.mem_of_getLast? h
  rw [List.mem_filter] at hmem
  exact ⟨a, hmem.1, of_decide_eq_true hmem.2⟩

end Quirrel.Lib
