import Quirrel.Table.FiniteMap

/-!
# What `NewSlot` returns

The comment on `NewSlot` says that the result is true for a new slot. A call that finds no free node
for `_firstfree` has stored the key already when it rehashes and calls itself, so the second call
meets the key and returns false. `keepsFreeNode` is the condition on the table before the call that
rules this out (`newSlot_of_absent`), and `newSlot_result_iff` is the result over all runs. The
number of used nodes is right on every path.
-/

set_option autoImplicit false

namespace Quirrel.Table

open Quirrel.Lib SQTable

universe u v

variable {K : Type u} {V : Type v} {o : ObjectOps K V} [DecidableEq K] {t : SQTable K V}
  {m : Finmap fun _ : K => V}

/-- A node holds the key. -/
def SQTable.HasKey (t : SQTable K V) (key : K) : Prop :=
  ∃ i ≤ t.numofnodesMinusOne, (t.nodes i).key = some key

instance (t : SQTable K V) (key : K) : Decidable (t.HasKey key) :=
  decidable_of_iff (∃ i < t.numofnodesMinusOne + 1, (t.nodes i).key = some key)
    (exists_congr fun _ => and_congr_left fun _ => Nat.lt_succ_iff)

/-- The node that the insertion of a new key uses up: its main position when that is empty, and the
node at `_firstfree` otherwise. -/
def takenNode (o : ObjectOps K V) (t : SQTable K V) (key : K) : Nat :=
  if (t.nodes (mainPosition o t key)).key.isNone then mainPosition o t key else t.firstfree

/-- At or below `_firstfree` there is a free node that the insertion of `key` does not use up. -/
def keepsFreeNode (o : ObjectOps K V) (t : SQTable K V) (key : K) : Prop :=
  ∃ i ≤ t.firstfree, i ≠ takenNode o t key ∧ isFree t i = true

theorem Represents.hasKey_iff (R : Represents o t m) (k : K) : t.HasKey k ↔ k ∈ m := by
  rw [R.stores.mem_iff]
  constructor
  · rintro ⟨i, -, hi⟩
    exact ⟨i, hi⟩
  · rintro ⟨i, hi⟩
    exact ⟨i, R.wf.key_le hi, hi⟩

/-! ## The free nodes after a key was placed -/

omit [DecidableEq K] in
/-- Placing a new key leaves every other free node at or below `_firstfree` free. -/
theorem isFree_placed (W : WellFormed o t) {k : K} {t1 : SQTable K V} {mp : Nat}
    (hp : placeKey o t (mainPosition o t k) = some (t1, mp)) {i : Nat} (hi : i ≤ t.firstfree) :
    isFree (t1.setKey mp (some k)) i = true ↔ i ≠ takenNode o t k ∧ isFree t i = true := by
  rw [isFree_iff, isFree_iff, keyAt_setKey, nextAt_setKey]
  -- the node taken is the main position, or the free one when another key sits there
  rcases placeKey_cases W (mainPosition o t k) with ⟨hh, he⟩ | ⟨c, hc, -, he⟩ |
    ⟨c, p, hc, hcm, hpn, he⟩
  · obtain ⟨rfl, rfl⟩ := Prod.mk.inj (Option.some.inj (he.symm.trans hp))
    have htaken : takenNode o t k = mainPosition o t k := by
      have hh' : (t.nodes (mainPosition o t k)).key = none := hh
      rw [takenNode, hh']
      rfl
    rw [htaken]
    by_cases hik : i = mainPosition o t k
    · simp [hik]
    · simp [hik]
  · obtain ⟨rfl, rfl⟩ := Prod.mk.inj (Option.some.inj (he.symm.trans hp))
    have htaken : takenNode o t k = t.firstfree := by
      have hc' : (t.nodes (mainPosition o t k)).key = some c := hc
      rw [takenNode, hc']
      rfl
    rw [htaken, keyAt_chained, nextAt_chained]
    by_cases hif : i = t.firstfree
    · simp [hif]
    · by_cases him : i = mainPosition o t k
      · -- the key at the main position stays
        subst him
        simp [Function.update_of_ne hif, hc]
      · rw [Function.update_of_ne hif, linkAfter_other him hif]
        simp [hif]
  · obtain ⟨rfl, rfl⟩ := Prod.mk.inj (Option.some.inj (he.symm.trans hp))
    have htaken : takenNode o t k = t.firstfree := by
      have hc' : (t.nodes (mainPosition o t k)).key = some c := hc
      rw [takenNode, hc']
      rfl
    have hlt : t.firstfree < mainPosition o t k := W.firstfree_lt_of_moved hc hcm
    have him : i ≠ mainPosition o t k := Nat.ne_of_lt (Nat.lt_of_le_of_lt hi hlt)
    have hpm : p ≠ mainPosition o t k := by
      rintro rfl
      exact W.linked.next_ne_self hpn rfl
    rw [htaken, keyAt_displaced, nextAt_displaced hpm, Function.update_of_ne him,
      Function.update_of_ne him]
    by_cases hif : i = t.firstfree
    · simp [hif]
    · rw [Function.update_of_ne hif]
      by_cases hip : i = p
      · -- the predecessor was linked before, and it is afterwards
        subst hip
        simp [hpn, relink_pred hif hpm]
      · rw [relink_other hip him hif]
        simp [hif]

omit [DecidableEq K] in
/-- The search for a new `_firstfree` succeeds exactly when the insertion keeps a free node. -/
theorem correctFirstfree_placed (W : WellFormed o t) {k : K} {t1 : SQTable K V} {mp : Nat}
    (hp : placeKey o t (mainPosition o t k) = some (t1, mp)) (hfree : t1.firstfree = t.firstfree) :
    (∃ f, correctFirstfree (t1.setKey mp (some k)) t1.firstfree = some f) ↔
      keepsFreeNode o t k := by
  rw [hfree]
  constructor
  · rintro ⟨f, hf⟩
    obtain ⟨hle, hfr, -⟩ := correctFirstfree_some hf
    exact ⟨f, hle, (isFree_placed W hp hle).1 hfr⟩
  · rintro ⟨i, hle, hi⟩
    exact correctFirstfree_of_free hle ((isFree_placed W hp hle).2 hi)

/-! ## The result -/

theorem newSlot_of_present (R : Represents o t m) {k : K} (hk : k ∈ m) (depth : Nat) (v : V) :
    ∃ t', newSlot o (depth + 2) t k v = some (t', false) ∧ t'.countUsed = t.countUsed := by
  obtain ⟨i, hi⟩ := R.stores.mem_iff.1 hk
  exact ⟨_, newSlot_of_key R.wf hi (depth + 1) v, rfl⟩

/-- The call reports a new slot exactly when it does not rehash. -/
theorem newSlot_of_absent (R : Represents o t m) {k : K} (hk : k ∉ m) (depth : Nat) (v : V) :
    ∃ t' created, newSlot o (depth + 2) t k v = some (t', created) ∧
      t'.countUsed = t.countUsed + 1 ∧ (created = true ↔ keepsFreeNode o t k) := by
  obtain ⟨t', created, he, R'⟩ := newSlot_represents R depth k v
  have hused : t'.countUsed = t.countUsed + 1 := by
    rw [countUsed, countUsed, R'.usednodes_eq, R.usednodes_eq, card_keys_insert hk]
  refine ⟨t', created, he, hused, ?_⟩
  have habs := R.stores.not_mem_iff.1 hk
  obtain ⟨t1, mp, hp, P⟩ := placeKey_placed R.wf habs
  have hfree : t1.firstfree = t.firstfree := P.firstfree_eq
  rw [← correctFirstfree_placed R.wf hp hfree]
  rcases newSlot_of_placeKey (getNode_of_absent R.wf habs) hp (depth + 1) v with
    ⟨f, hf, hn⟩ | ⟨hf, hn⟩
  · obtain ⟨-, rfl⟩ := Prod.mk.inj (Option.some.inj (he.symm.trans hn))
    exact iff_of_true rfl ⟨f, hf⟩
  · -- after the rehash the key is present, so the second call only stores the value
    obtain ⟨t3, he3, R3, -⟩ := P.rehash R hk depth
    obtain ⟨i, hi⟩ := R3.stores.mem_iff.1 (Finmap.mem_insert.2 (.inl rfl))
    rw [hn, he3] at he
    have he' : newSlot o (depth + 1) t3 k v = some (t', created) := he
    obtain ⟨-, rfl⟩ :=
      Prod.mk.inj (Option.some.inj ((newSlot_of_key R3.wf hi depth v).symm.trans he'))
    refine iff_of_false Bool.false_ne_true ?_
    rintro ⟨f, hf'⟩
    rw [hf] at hf'
    exact absurd hf' nofun

/-- In every table that a run of operations leaves, `NewSlot` reports the creation of a slot and
counts it as its comment says exactly when the key is present or the insertion keeps a free node. -/
theorem newSlot_result_iff (o : ObjectOps K V) (depth : Nat) (nInitialSize : Int)
    (ops : List (TableOp K V)) (key : K) (val : V) :
    ∃ t t' created, runOps o (depth + 2) nInitialSize ops = some t ∧
      newSlot o (depth + 2) t key val = some (t', created) ∧
      (((created = true ↔ ¬ t.HasKey key) ∧
          (t'.countUsed = t.countUsed + 1 ↔ ¬ t.HasKey key)) ↔
        (t.HasKey key ∨ keepsFreeNode o t key)) := by
  obtain ⟨t, hrun, R⟩ := runOps_represents (o := o) depth nInitialSize ops
  have hkey := R.hasKey_iff key
  by_cases hk : key ∈ specOps ops
  · obtain ⟨t', he, hused⟩ := newSlot_of_present R hk depth val
    have hhas : t.HasKey key := hkey.2 hk
    refine ⟨t, t', false, hrun, he, iff_of_true ⟨?_, ?_⟩ (.inl hhas)⟩
    · exact iff_of_false Bool.false_ne_true (not_not_intro hhas)
    · exact iff_of_false (by omega) (not_not_intro hhas)
  · obtain ⟨t', created, he, hused, hcreated⟩ := newSlot_of_absent R hk depth val
    have hhas : ¬ t.HasKey key := fun h => hk (hkey.1 h)
    refine ⟨t, t', created, hrun, he, ?_⟩
    rw [or_iff_right hhas, ← hcreated]
    exact ⟨fun h => h.1.2 hhas, fun h => ⟨iff_of_true h hhas, iff_of_true hused hhas⟩⟩

/-- Keys that are their own hash. -/
def plainOps : ObjectOps Nat Nat where
  hashObj k := k
  stringAddr _ := none
  null := 0
  realval v := v

/-- The first insertion into a new table fills its only node: the key was absent and the call
reports no new slot. -/
theorem newSlot_first_false :
    ¬ (create plainOps 0 : SQTable Nat Nat).HasKey 7 ∧
      (newSlot plainOps 2 (create plainOps 0) 7 1).map (fun r => (r.1.countUsed, r.2)) =
        some (1, false) := by
  decide +kernel

end Quirrel.Table
