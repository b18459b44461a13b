import Mathlib.Data.Finmap
import Quirrel.Table.Invariant

/-!
# `NewSlot` and `Rehash`

`Represents o t m` says that the table `t` is well formed and stands for the finite map `m`.
`newSlot_represents` and `rehash_spec` show that insertion and rehashing keep it. The hard case is a
`NewSlot` without a free node left: it rehashes and starts again. A rehash fills a table without
dead nodes (`Dense`), where a free node is found as long as not every node holds a key, so the
insertions of a rehash never rehash themselves and two levels of calls are enough.
-/

set_option autoImplicit false

namespace Quirrel.Table

open Quirrel.Lib SQTable

universe u v

variable {K : Type u} {V : Type v} {o : ObjectOps K V}

/-! ## Correcting `_firstfree` -/

/-- The last free node is the first one found from above. -/
theorem correctFirstfree_some {t : SQTable K V} {i f : Nat} (h : correctFirstfree t i = some f) :
    f ≤ i ∧ isFree t f = true ∧ ∀ j, f < j → j ≤ i → isFree t j = false := by
  induction i with
  | zero =>
    by_cases hf : isFree t 0 = true
    · obtain rfl : 0 = f := by simpa [correctFirstfree, hf] using h
      exact ⟨le_refl _, hf, fun j h1 h2 => by omega⟩
    · simp [correctFirstfree, hf] at h
  | succ i ih =>
    by_cases hf : isFree t (i + 1) = true
    · obtain rfl : i + 1 = f := by simpa [correctFirstfree, hf] using h
      exact ⟨le_refl _, hf, fun j h1 h2 => by omega⟩
    · obtain ⟨h1, h2, h3⟩ := ih (by simpa [correctFirstfree, hf] using h)
      refine ⟨by omega, h2, fun j hj hji => ?_⟩
      by_cases hjs : j = i + 1
      · simpa [hjs] using hf
      · exact h3 j hj (by omega)

/-- When none is found, none is free. -/
theorem correctFirstfree_none {t : SQTable K V} {i : Nat} (h : correctFirstfree t i = none) :
    ∀ j ≤ i, isFree t j = false := by
  induction i with
  | zero =>
    intro j hj
    obtain rfl : j = 0 := by omega
    by_contra hf
    simp [correctFirstfree, hf] at h
  | succ i ih =>
    intro j hj
    by_cases hf : isFree t (i + 1) = true
    · simp [correctFirstfree, hf] at h
    · by_cases hji : j = i + 1
      · simpa [hji] using hf
      · exact ih (by simpa [correctFirstfree, hf] using h) j (by omega)

/-- A free node below is found. -/
theorem correctFirstfree_of_free {t : SQTable K V} {i j : Nat} (hj : j ≤ i)
    (h : isFree t j = true) : ∃ f, correctFirstfree t i = some f := by
  cases hf : correctFirstfree t i with
  | some f => exact ⟨f, rfl⟩
  | none =>
    rw [correctFirstfree_none hf j hj] at h
    exact absurd h (by simp)

/-! ## Ending an insertion -/

section ClassTypeId

variable (o) (t : SQTable K V) (k : K) (mp : Nat)

@[simp] theorem nodes_updateClassTypeId : (updateClassTypeId o t k mp).nodes = t.nodes := by
  unfold updateClassTypeId
  split
  · split_ifs <;> rfl
  · rfl

@[simp] theorem firstfree_updateClassTypeId :
    (updateClassTypeId o t k mp).firstfree = t.firstfree := by
  unfold updateClassTypeId
  split
  · split_ifs <;> rfl
  · rfl

@[simp] theorem numofnodesMinusOne_updateClassTypeId :
    (updateClassTypeId o t k mp).numofnodesMinusOne = t.numofnodesMinusOne := by
  unfold updateClassTypeId
  split
  · split_ifs <;> rfl
  · rfl

@[simp] theorem usednodes_updateClassTypeId :
    (updateClassTypeId o t k mp).usednodes = t.usednodes := by
  unfold updateClassTypeId
  split
  · split_ifs <;> rfl
  · rfl

end ClassTypeId

/-- The end of `NewSlot` once a free node `f` was found: `k` is in node `mp`. -/
def finishSlot (o : ObjectOps K V) (t : SQTable K V) (f : Nat) (k : K) (v : V) (mp : Nat) :
    SQTable K V :=
  let t' := updateClassTypeId o ({ t with firstfree := f }.setVal mp v) k mp
  { t' with usednodes := t'.usednodes + 1 }

section FinishSlot

variable (t : SQTable K V) (f : Nat) (k : K) (v : V) (mp : Nat)

@[simp] theorem keyAt_finishSlot : (finishSlot o t f k v mp).keyAt = t.keyAt := by
  have h : (finishSlot o t f k v mp).keyAt = ({ t with firstfree := f }.setVal mp v).keyAt := by
    funext i
    simp [finishSlot, keyAt]
  rw [h, keyAt_setVal]
  rfl

@[simp] theorem nextAt_finishSlot : (finishSlot o t f k v mp).nextAt = t.nextAt := by
  have h : (finishSlot o t f k v mp).nextAt = ({ t with firstfree := f }.setVal mp v).nextAt := by
    funext i
    simp [finishSlot, nextAt]
  rw [h, nextAt_setVal]
  rfl

@[simp] theorem valAt_finishSlot :
    (finishSlot o t f k v mp).valAt = Function.update t.valAt mp v := by
  have h : (finishSlot o t f k v mp).valAt = ({ t with firstfree := f }.setVal mp v).valAt := by
    funext i
    simp [finishSlot, valAt]
  rw [h, valAt_setVal]
  rfl

@[simp] theorem firstfree_finishSlot : (finishSlot o t f k v mp).firstfree = f := by
  simp [finishSlot, setVal]

@[simp] theorem numofnodesMinusOne_finishSlot :
    (finishSlot o t f k v mp).numofnodesMinusOne = t.numofnodesMinusOne := by
  simp [finishSlot, setVal, setNode]

@[simp] theorem usednodes_finishSlot :
    (finishSlot o t f k v mp).usednodes = t.usednodes + 1 := by
  simp [finishSlot, setVal, setNode]

end FinishSlot

theorem mainPosition_congr {t t' : SQTable K V}
    (h : t'.numofnodesMinusOne = t.numofnodesMinusOne) : mainPosition o t' = mainPosition o t := by
  funext k
  rw [mainPosition, mainPosition, h]

/-- With a free node found below, a placed key makes the table well formed again. -/
theorem Placed.wellFormed {t t' : SQTable K V} {k : K} {mp f : Nat} (P : Placed o t k t' mp)
    (W : WellFormed o t) (hf : correctFirstfree t' t'.firstfree = some f) (v : V) :
    WellFormed o (finishSlot o t' f k v mp) := by
  obtain ⟨hle, hfree, -⟩ := correctFirstfree_some hf
  rw [isFree_iff] at hfree
  have hmain : mainPosition o (finishSlot o t' f k v mp) = mainPosition o t' :=
    mainPosition_congr (by simp)
  constructor
  case linked =>
    rw [hmain, keyAt_finishSlot, nextAt_finishSlot]
    exact P.linked
  case key_le =>
    intro i k' hk
    rw [keyAt_finishSlot] at hk
    rw [numofnodesMinusOne_finishSlot]
    exact P.key_le hk
  case next_le =>
    intro i j hj
    rw [nextAt_finishSlot] at hj
    rw [numofnodesMinusOne_finishSlot]
    exact P.next_le hj
  case firstfree_le =>
    have := W.firstfree_le
    rw [firstfree_finishSlot, numofnodesMinusOne_finishSlot, P.numofnodes_eq]
    rw [P.firstfree_eq] at hle
    omega
  case free => simpa using hfree
  case next_gt =>
    intro i j hj
    rw [nextAt_finishSlot] at hj
    rw [firstfree_finishSlot]
    obtain ⟨hge, heq⟩ := P.next_ge hj
    -- `f` is empty, and a link to the old `_firstfree` means that it is in use
    rcases Nat.lt_or_eq_of_le (hle.trans hge) with h | h
    · exact h
    · have hj' : j = t'.firstfree := by omega
      have := heq hj'
      rw [← hj', ← h] at this
      exact absurd hfree.1 this

/-! ## Tables without dead nodes -/

/-- No empty node is linked to another one, and every node above `_firstfree` holds a key. -/
structure Dense (t : SQTable K V) : Prop where
  next_none : ∀ {i}, t.keyAt i = none → t.nextAt i = none
  full : ∀ {i}, t.firstfree < i → i ≤ t.numofnodesMinusOne → t.keyAt i ≠ none

/-- A table stays dense behind a placed key. -/
theorem Placed.dense {t t' : SQTable K V} {k : K} {mp f : Nat} (P : Placed o t k t' mp)
    (D : Dense t) (hf : correctFirstfree t' t'.firstfree = some f) (v : V) :
    Dense (finishSlot o t' f k v mp) := by
  obtain ⟨-, -, hno⟩ := correctFirstfree_some hf
  have hnext : ∀ {i}, t'.keyAt i = none → t'.nextAt i = none := by
    intro i hi
    obtain ⟨h1, h2⟩ := P.free_of_free hi
    exact h2 (D.next_none h1)
  constructor
  case next_none =>
    intro i hi
    rw [keyAt_finishSlot] at hi
    rw [nextAt_finishSlot]
    exact hnext hi
  case full =>
    intro i hfi hi hk
    rw [firstfree_finishSlot] at hfi
    rw [numofnodesMinusOne_finishSlot, P.numofnodes_eq] at hi
    rw [keyAt_finishSlot] at hk
    by_cases hle : i ≤ t'.firstfree
    · have hfree : isFree t' i = true := isFree_iff.2 ⟨hk, hnext hk⟩
      rw [hno i hfi hle] at hfree
      exact absurd hfree (by simp)
    · rw [P.firstfree_eq] at hle
      exact D.full (by omega) hi (P.free_of_free hk).1

/-- In a table without dead nodes no free node is found only when every node holds a key. -/
theorem Placed.full_of_none {t t' : SQTable K V} {k : K} {mp : Nat} (P : Placed o t k t' mp)
    (D : Dense t) (hf : correctFirstfree t' t'.firstfree = none) :
    ∀ i ≤ t'.numofnodesMinusOne, t'.keyAt i ≠ none := by
  intro i hi hk
  obtain ⟨h1, h2⟩ := P.free_of_free hk
  by_cases hle : i ≤ t'.firstfree
  · have hfree : isFree t' i = true := isFree_iff.2 ⟨hk, h2 (D.next_none h1)⟩
    rw [correctFirstfree_none hf i hle] at hfree
    exact absurd hfree (by simp)
  · rw [P.firstfree_eq] at hle
    rw [P.numofnodes_eq] at hi
    exact D.full (by omega) hi h1

/-! ## The finite map of a table -/

section

variable [DecidableEq K]

/-- The nodes hold exactly the entries of `m`, each key once. -/
structure Stores (t : SQTable K V) (m : Finmap fun _ : K => V) : Prop where
  key_le : ∀ {i k}, t.keyAt i = some k → i ≤ t.numofnodesMinusOne
  key_inj : ∀ {i i' k}, t.keyAt i = some k → t.keyAt i' = some k → i = i'
  holds : ∀ {k v}, t.Holds k v ↔ m.lookup k = some v

/-- The table is well formed and stands for the finite map `m`. -/
structure Represents (o : ObjectOps K V) (t : SQTable K V) (m : Finmap fun _ : K => V) : Prop where
  wf : WellFormed o t
  holds : ∀ {k v}, t.Holds k v ↔ m.lookup k = some v
  usednodes_eq : t.usednodes = m.keys.card
  size_pow : ∃ a, t.size = 2 ^ a

variable {t : SQTable K V} {m : Finmap fun _ : K => V}

/-- The nodes store the map that the table represents. -/
theorem Represents.stores (R : Represents o t m) : Stores t m where
  key_le h := R.wf.key_le h
  key_inj h h' := R.wf.linked.key_inj h h'
  holds := R.holds

namespace Stores

/-- A key is in the map when a node holds it. -/
theorem mem_iff (S : Stores t m) {k : K} : k ∈ m ↔ ∃ i, t.keyAt i = some k := by
  rw [Finmap.mem_iff]
  constructor
  · rintro ⟨v, hv⟩
    obtain ⟨i, hi, -⟩ := (S.holds (v := v)).2 hv
    exact ⟨i, hi⟩
  · rintro ⟨i, hi⟩
    exact ⟨t.valAt i, S.holds.1 ⟨i, hi, rfl⟩⟩

theorem not_mem_iff (S : Stores t m) {k : K} : k ∉ m ↔ ∀ i, t.keyAt i ≠ some k := by
  rw [S.mem_iff, not_exists]

/-- There are at most as many keys as nodes. -/
theorem card_le_size (S : Stores t m) : m.keys.card ≤ t.size := by
  have hsurj : Set.SurjOn t.keyAt (Finset.range t.size) (m.keys.image some : Finset (Option K)) := by
    intro x hx
    obtain ⟨k, hk, rfl⟩ := Finset.mem_image.1 hx
    obtain ⟨i, hi⟩ := S.mem_iff.1 (Finmap.mem_keys.1 hk)
    have hle := S.key_le hi
    exact ⟨i, Finset.mem_coe.2 (Finset.mem_range.2 (by rw [size]; omega)), hi⟩
  have hcard := Finset.card_le_card_of_surjOn _ hsurj
  rwa [Finset.card_image_of_injective _ (Option.some_injective K), Finset.card_range] at hcard

/-- With a key in every node there are as many keys as nodes. -/
theorem size_le_card (S : Stores t m) (hfull : ∀ i ≤ t.numofnodesMinusOne, t.keyAt i ≠ none) :
    t.size ≤ m.keys.card := by
  have hmaps : Set.MapsTo t.keyAt (Finset.range t.size) (m.keys.image some : Finset (Option K)) := by
    intro i hi
    have hlt : i < t.size := Finset.mem_range.1 (Finset.mem_coe.1 hi)
    obtain ⟨k, hk⟩ := Option.ne_none_iff_exists'.1 (hfull i (by rw [size] at hlt; omega))
    rw [hk]
    exact Finset.mem_coe.2 (Finset.mem_image.2 ⟨k, Finmap.mem_keys.2 (S.mem_iff.2 ⟨i, hk⟩), rfl⟩)
  have hinj : Set.InjOn t.keyAt (Finset.range t.size : Finset Nat) := by
    intro i hi i' _ heq
    have hlt : i < t.size := Finset.mem_range.1 (Finset.mem_coe.1 hi)
    obtain ⟨k, hk⟩ := Option.ne_none_iff_exists'.1 (hfull i (by rw [size] at hlt; omega))
    exact S.key_inj hk (heq ▸ hk)
  have hcard := Finset.card_le_card_of_injOn _ hmaps hinj
  rwa [Finset.card_image_of_injective _ (Option.some_injective K), Finset.card_range] at hcard

/-- With an empty node there are fewer keys than nodes. -/
theorem card_lt_size (S : Stores t m) {f : Nat} (hf : f ≤ t.numofnodesMinusOne)
    (hfree : t.keyAt f = none) : m.keys.card < t.size := by
  have hsurj : Set.SurjOn t.keyAt ((Finset.range t.size).erase f)
      (m.keys.image some : Finset (Option K)) := by
    intro x hx
    obtain ⟨k, hk, rfl⟩ := Finset.mem_image.1 hx
    obtain ⟨i, hi⟩ := S.mem_iff.1 (Finmap.mem_keys.1 hk)
    have hne : i ≠ f := by
      rintro rfl
      rw [hfree] at hi
      exact absurd hi (by simp)
    have hlt : i ∈ Finset.range t.size := Finset.mem_range.2 (Nat.lt_succ_of_le (S.key_le hi))
    exact ⟨i, Finset.mem_coe.2 (Finset.mem_erase.2 ⟨hne, hlt⟩), hi⟩
  have hcard := Finset.card_le_card_of_surjOn _ hsurj
  have hmem : f ∈ Finset.range t.size := Finset.mem_range.2 (Nat.lt_succ_of_le hf)
  rw [Finset.card_image_of_injective _ (Option.some_injective K), Finset.card_erase_of_mem hmem,
    Finset.card_range] at hcard
  have hpos : 0 < t.size := by rw [size]; omega
  omega

end Stores

theorem card_keys_insert {k : K} (hk : k ∉ m) (v : V) :
    (m.insert k v).keys.card = m.keys.card + 1 := by
  have hkeys : (m.insert k v).keys = Insert.insert k m.keys := by
    ext x
    rw [Finmap.mem_keys, Finmap.mem_insert, Finset.mem_insert, Finmap.mem_keys]
  rw [hkeys, Finset.card_insert_of_notMem (fun h => hk (Finmap.mem_keys.1 h))]

/-- A placed key adds one entry, once the value is in its node. -/
theorem Placed.holds_iff {t' : SQTable K V} {k : K} {mp : Nat} (P : Placed o t k t' mp)
    (S : Stores t m) (v : V) {k' : K} {v' : V} :
    (∃ i, t'.keyAt i = some k' ∧ Function.update t'.valAt mp v i = v') ↔
      (m.insert k v).lookup k' = some v' := by
  by_cases hk : k' = k
  · subst hk
    rw [Finmap.lookup_insert]
    constructor
    · rintro ⟨i, hi, hv⟩
      rw [P.linked.key_inj hi P.key_mp, Function.update_self] at hv
      rw [hv]
    · intro hv
      exact ⟨mp, P.key_mp, by simpa using hv⟩
  · rw [Finmap.lookup_insert_of_ne _ hk, ← S.holds, ← P.keeps hk]
    have hmp : ∀ {i}, t'.keyAt i = some k' → i ≠ mp := by
      rintro i hi rfl
      rw [P.key_mp] at hi
      exact hk (Option.some.inj hi).symm
    constructor
    · rintro ⟨i, hi, hv⟩
      exact ⟨i, hi, by rwa [Function.update_of_ne (hmp hi)] at hv⟩
    · rintro ⟨i, hi, hv⟩
      exact ⟨i, hi, by rwa [Function.update_of_ne (hmp hi)]⟩

/-- A placed key is the map with that key. -/
theorem Placed.represents {t' : SQTable K V} {k : K} {mp f : Nat} (P : Placed o t k t' mp)
    (R : Represents o t m) (hnew : k ∉ m) (hf : correctFirstfree t' t'.firstfree = some f) (v : V) :
    Represents o (finishSlot o t' f k v mp) (m.insert k v) where
  wf := P.wellFormed R.wf hf v
  holds {k' v'} := by
    rw [← P.holds_iff R.stores v, Holds, keyAt_finishSlot, valAt_finishSlot]
  usednodes_eq := by
    rw [usednodes_finishSlot, P.usednodes_eq, R.usednodes_eq, card_keys_insert hnew]
  size_pow := by
    obtain ⟨a, ha⟩ := R.size_pow
    exact ⟨a, by rw [← ha, size, size, numofnodesMinusOne_finishSlot, P.numofnodes_eq]⟩

/-- The nodes after a key was placed, before the value is stored. -/
theorem Placed.stores {t' : SQTable K V} {k : K} {mp : Nat} (P : Placed o t k t' mp)
    (S : Stores t m) : Stores t' (m.insert k (t'.valAt mp)) where
  key_le h := P.key_le h
  key_inj h h' := P.linked.key_inj h h'
  holds {k' v'} := by
    rw [← P.holds_iff S (t'.valAt mp), Function.update_eq_self, Holds]

/-! ## `NewSlot` -/

/-- What `NewSlot` does once a node is ready for the new key. -/
theorem newSlot_of_placeKey {k : K} (hg : getNode o t k = some none) {t1 : SQTable K V} {mp : Nat}
    (hp : placeKey o t (mainPosition o t k) = some (t1, mp)) (depth : Nat) (v : V) :
    (∃ f, correctFirstfree (t1.setKey mp (some k)) t1.firstfree = some f ∧
        newSlot o (depth + 1) t k v =
          some (finishSlot o (t1.setKey mp (some k)) f k v mp, true)) ∨
      (correctFirstfree (t1.setKey mp (some k)) t1.firstfree = none ∧
        newSlot o (depth + 1) t k v =
          (rehash o (newSlot o depth) true { t1.setKey mp (some k) with firstfree := 0 }).bind
            fun t3 => newSlot o depth t3 k v) := by
  have hfree : (t1.setKey mp (some k)).firstfree = t1.firstfree := rfl
  cases hf : correctFirstfree (t1.setKey mp (some k)) t1.firstfree with
  | some f =>
    refine .inl ⟨f, rfl, ?_⟩
    rw [newSlot, hg]
    simp only [hp, hfree, hf]
    rfl
  | none =>
    refine .inr ⟨rfl, ?_⟩
    rw [newSlot, hg]
    simp only [hp, hfree, hf]
    cases rehash o (newSlot o depth) true { t1.setKey mp (some k) with firstfree := 0 } <;> rfl

/-- What `NewSlot` does: it stores the value of a present key, or it places the new key and then
finds a free node or rehashes. -/
theorem newSlot_cases (W : WellFormed o t) (depth : Nat) (k : K) (v : V) :
    (∃ i, t.keyAt i = some k ∧ newSlot o (depth + 1) t k v = some (t.setVal i v, false)) ∨
    ((∀ i, t.keyAt i ≠ some k) ∧ ∃ t' mp, Placed o t k t' mp ∧
      ((∃ f, correctFirstfree t' t'.firstfree = some f ∧
          newSlot o (depth + 1) t k v = some (finishSlot o t' f k v mp, true)) ∨
        (correctFirstfree t' t'.firstfree = none ∧
          newSlot o (depth + 1) t k v =
            (rehash o (newSlot o depth) true { t' with firstfree := 0 }).bind
              fun t3 => newSlot o depth t3 k v))) := by
  rcases getNode_cases W k with ⟨i, hi, hg⟩ | ⟨hnew, hg⟩
  · refine .inl ⟨i, hi, ?_⟩
    rw [newSlot, hg]
  · obtain ⟨t1, mp, hp, P⟩ := placeKey_placed W hnew
    exact .inr ⟨hnew, _, mp, P, newSlot_of_placeKey hg hp depth v⟩

/-- `NewSlot` of a key that is there writes its value. -/
theorem newSlot_of_key (W : WellFormed o t) {i : Nat} {k : K} (hi : t.keyAt i = some k)
    (depth : Nat) (v : V) : newSlot o (depth + 1) t k v = some (t.setVal i v, false) := by
  rw [newSlot, getNode_of_key W hi]

/-- Storing a value under a present key. -/
theorem Represents.setVal (R : Represents o t m) {i : Nat} {k : K} (hi : t.keyAt i = some k)
    (v : V) : Represents o (t.setVal i v) (m.insert k v) where
  wf := by
    constructor
    case linked =>
      rw [keyAt_setVal, nextAt_setVal]
      exact R.wf.linked
    case key_le =>
      intro j k' hj
      exact R.wf.key_le (by simpa using hj)
    case next_le =>
      intro j j' hj
      exact R.wf.next_le (by simpa using hj)
    case firstfree_le => exact R.wf.firstfree_le
    case free =>
      rw [keyAt_setVal, nextAt_setVal]
      exact R.wf.free
    case next_gt =>
      intro j j' hj
      exact R.wf.next_gt (by simpa using hj)
  holds {k' v'} := by
    rw [Holds, keyAt_setVal, valAt_setVal]
    -- the key of the written node, and any other key
    by_cases hk : k' = k
    · subst hk
      rw [Finmap.lookup_insert]
      constructor
      · rintro ⟨j, hj, hv⟩
        rw [R.wf.linked.key_inj hj hi, Function.update_self] at hv
        rw [hv]
      · intro hv
        exact ⟨i, hi, by simpa using hv⟩
    · rw [Finmap.lookup_insert_of_ne _ hk, ← R.holds]
      have hne : ∀ {j}, t.keyAt j = some k' → j ≠ i := by
        rintro j hj rfl
        rw [hi] at hj
        exact hk (Option.some.inj hj).symm
      constructor
      · rintro ⟨j, hj, hv⟩
        exact ⟨j, hj, by rwa [Function.update_of_ne (hne hj)] at hv⟩
      · rintro ⟨j, hj, hv⟩
        exact ⟨j, hj, by rwa [Function.update_of_ne (hne hj)]⟩
  usednodes_eq := by
    -- no key comes or goes
    have hkeys : (m.insert k v).keys = m.keys := by
      ext x
      rw [Finmap.mem_keys, Finmap.mem_insert, Finmap.mem_keys]
      constructor
      · rintro (rfl | h)
        · exact R.stores.mem_iff.2 ⟨i, hi⟩
        · exact h
      · exact Or.inr
    rw [hkeys, ← R.usednodes_eq]
    rfl
  size_pow := R.size_pow

/-! ## Rehashing -/

/-- A table without keys represents the empty map. -/
theorem represents_empty {t : SQTable K V} (hkey : ∀ i, t.keyAt i = none)
    (hnext : ∀ i, t.nextAt i = none) (hfree : t.firstfree ≤ t.numofnodesMinusOne)
    (hused : t.usednodes = 0) (hpow : ∃ a, t.size = 2 ^ a) : Represents o t ∅ where
  wf := by
    have hk : t.keyAt = fun _ => none := funext hkey
    have hn : t.nextAt = fun _ => none := funext hnext
    constructor
    case linked =>
      rw [hk, hn]
      exact Linked.empty _
    case key_le =>
      intro i k hi
      rw [hkey i] at hi
      exact absurd hi (by simp)
    case next_le =>
      intro i j hj
      rw [hnext i] at hj
      exact absurd hj (by simp)
    case firstfree_le => exact hfree
    case free => exact ⟨hkey _, hnext _⟩
    case next_gt =>
      intro i j hj
      rw [hnext i] at hj
      exact absurd hj (by simp)
  holds {k v} := by simp [Holds, hkey]
  usednodes_eq := by simpa using hused
  size_pow := hpow

/-- A table without dead nodes that has two nodes more than keys takes a new key without a rehash. -/
theorem newSlot_dense_cases (R : Represents o t m) (D : Dense t) {k : K} (hnew : k ∉ m) (v : V)
    (hsize : m.keys.card + 1 < t.size) (depth : Nat) :
    ∃ t' mp f, Placed o t k t' mp ∧ correctFirstfree t' t'.firstfree = some f ∧
      newSlot o (depth + 1) t k v = some (finishSlot o t' f k v mp, true) := by
  rcases newSlot_cases R.wf depth k v with ⟨i, hi, -⟩ | ⟨-, t', mp, P, ⟨f, hf, he⟩ | ⟨hf, -⟩⟩
  · exact absurd hi (R.stores.not_mem_iff.1 hnew i)
  · exact ⟨t', mp, f, P, hf, he⟩
  · have hle := (P.stores R.stores).size_le_card (P.full_of_none D hf)
    rw [card_keys_insert hnew, size, P.numofnodes_eq] at hle
    rw [size] at hsize
    omega

/-- `NewSlot` into a dense table with room does not rehash. -/
theorem newSlot_dense (R : Represents o t m) (D : Dense t) {k : K} (hnew : k ∉ m) (v : V)
    (hsize : m.keys.card + 1 < t.size) (depth : Nat) :
    ∃ t', newSlot o (depth + 1) t k v = some (t', true) ∧ Represents o t' (m.insert k v) ∧
      Dense t' ∧ t'.numofnodesMinusOne = t.numofnodesMinusOne := by
  obtain ⟨t', mp, f, P, hf, he⟩ := newSlot_dense_cases R D hnew v hsize depth
  exact ⟨_, he, P.represents R hnew hf v, P.dense D hf v, by simp [P.numofnodes_eq]⟩

/-- The key of node `j` is not among the keys of the nodes below, and is one more of the keys. -/
theorem Stores.card_below {old : SQTable K V} (S : Stores old m) {j : Nat} {k : K}
    (hk : old.keyAt j = some k) {m' : Finmap fun _ : K => V}
    (hm' : ∀ k v, m'.lookup k = some v ↔ ∃ i < j, old.keyAt i = some k ∧ old.valAt i = v) :
    k ∉ m' ∧ m'.keys.card + 1 ≤ m.keys.card := by
  have hnew : k ∉ m' := by
    intro h
    obtain ⟨v, hv⟩ := Finmap.mem_iff.1 h
    obtain ⟨i, hi, hik, -⟩ := (hm' k v).1 hv
    have := S.key_inj hik hk
    omega
  refine ⟨hnew, ?_⟩
  rw [← card_keys_insert hnew (old.valAt j)]
  refine Finset.card_le_card fun x hx => ?_
  rw [Finmap.mem_keys, Finmap.mem_insert] at hx
  rw [Finmap.mem_keys, S.mem_iff]
  rcases hx with rfl | hx
  · exact ⟨j, hk⟩
  · obtain ⟨v, hv⟩ := Finmap.mem_iff.1 hx
    obtain ⟨i, -, hi, -⟩ := (hm' x v).1 hv
    exact ⟨i, hi⟩

/-- The reinsertions of a rehash, over the first `j` old nodes. -/
theorem foldlM_reinsertNode {old fresh : SQTable K V} (S : Stores old m)
    (R : Represents o fresh ∅) (D : Dense fresh) (hsize : m.keys.card < fresh.size) (depth : Nat)
    (j : Nat) :
    ∃ t' m', (List.range j).foldlM (reinsertNode (newSlot o (depth + 1)) old) fresh = some t' ∧
      Represents o t' m' ∧ Dense t' ∧ t'.numofnodesMinusOne = fresh.numofnodesMinusOne ∧
      ∀ k v, m'.lookup k = some v ↔ ∃ i < j, old.keyAt i = some k ∧ old.valAt i = v := by
  induction j with
  | zero => exact ⟨fresh, ∅, rfl, R, D, rfl, by simp⟩
  | succ j ih =>
    obtain ⟨t', m', he, R', D', hn, hm'⟩ := ih
    rw [List.range_succ, List.foldlM_append, he]
    -- a free node is skipped, and the key of a used one is new in the fresh table
    cases hk : old.keyAt j with
    | none =>
      have hstep : reinsertNode (newSlot o (depth + 1)) old t' j = some t' := by
        have hk' : (old.nodes j).key = none := hk
        simp [reinsertNode, hk']
      refine ⟨t', m', by simp [hstep], R', D', hn, fun k v => ?_⟩
      rw [hm']
      constructor
      · rintro ⟨i, hi, h⟩
        exact ⟨i, by omega, h⟩
      · rintro ⟨i, hi, h1, h2⟩
        rcases Nat.lt_succ_iff_lt_or_eq.1 hi with hi | rfl
        · exact ⟨i, hi, h1, h2⟩
        · rw [hk] at h1
          exact absurd h1 (by simp)
    | some k =>
      obtain ⟨hnew, hle⟩ := S.card_below hk hm'
      have hsize' : m'.keys.card + 1 < t'.size := by
        rw [size, hn]
        rw [size] at hsize
        omega
      obtain ⟨t2, he2, R2, D2, hn2⟩ := newSlot_dense R' D' hnew (old.valAt j) hsize' depth
      have hstep : reinsertNode (newSlot o (depth + 1)) old t' j = some t2 := by
        have hk' : (old.nodes j).key = some k := hk
        have he2' : newSlot o (depth + 1) t' k (old.nodes j).val = some (t2, true) := he2
        simp [reinsertNode, hk', he2']
      refine ⟨t2, _, by simp [hstep], R2, D2, by rw [hn2, hn], fun k' v' => ?_⟩
      -- the key of node `j` comes from that node only, any other from one of the nodes before
      by_cases hkk : k' = k
      · subst hkk
        rw [Finmap.lookup_insert]
        constructor
        · intro h
          exact ⟨j, by omega, hk, Option.some.inj h⟩
        · rintro ⟨i, -, hi, hv⟩
          rw [← hv, S.key_inj hi hk]
      · rw [Finmap.lookup_insert_of_ne _ hkk, hm']
        constructor
        · rintro ⟨i, hi, h⟩
          exact ⟨i, by omega, h⟩
        · rintro ⟨i, hi, h1, h2⟩
          rcases Nat.lt_succ_iff_lt_or_eq.1 hi with hi | rfl
          · exact ⟨i, hi, h1, h2⟩
          · rw [hk] at h1
            exact absurd (Option.some.inj h1).symm hkk

omit [DecidableEq K] in
/-- The new node array of a rehash has more nodes than there are keys, and a power of two of them. -/
theorem rehashSize_some {t : SQTable K V} {force : Bool} {n c : Nat}
    (h : rehashSize force t = some n) (hc : c ≤ t.usednodes + 1) (hs : c ≤ t.size)
    (hpow : ∃ a, t.size = 2 ^ a) : c < n ∧ ∃ b, n = 2 ^ b := by
  obtain ⟨a, ha⟩ := hpow
  have hpos : 0 < t.size := by rw [size]; omega
  unfold rehashSize countUsed at h
  dsimp only at h
  split at h
  · obtain rfl := Option.some.inj h
    exact ⟨by omega, a + 1, by rw [ha, pow_succ]⟩
  · split at h
    · rename_i hshrink
      obtain rfl := Option.some.inj h
      have hgt : 1 < t.size := hshrink.2
      refine ⟨by omega, a - 1, ?_⟩
      cases a with
      | zero => rw [ha] at hgt; exact absurd hgt (by simp)
      | succ a => rw [ha, pow_succ]; simp
    · split at h
      · obtain rfl := Option.some.inj h
        have hlog : t.size < 2 ^ (Nat.log2 t.size + 1) := Nat.lt_log2_self
        rw [Nat.one_shiftLeft]
        exact ⟨by omega, _, rfl⟩
      · exact absurd h (by simp)

omit [DecidableEq K] in
/-- A rehash that is not needed does nothing. -/
theorem rehash_of_none {force : Bool} {t : SQTable K V} (h : rehashSize force t = none)
    (ns : SQTable K V → K → V → Option (SQTable K V × Bool)) :
    rehash o ns force t = some t := by
  simp [rehash, h]

/-- The table that a rehash fills. -/
def freshNodes (o : ObjectOps K V) (n : Nat) (t : SQTable K V) : SQTable K V :=
  { allocNodes o n t with usednodes := 0 }

omit [DecidableEq K] in
/-- A rehash inserts all entries into new nodes. -/
theorem rehash_of_some {force : Bool} {t : SQTable K V} {n : Nat}
    (h : rehashSize force t = some n)
    (ns : SQTable K V → K → V → Option (SQTable K V × Bool)) :
    rehash o ns force t = (List.range t.size).foldlM (reinsertNode ns t) (freshNodes o n t) := by
  simp [rehash, h, freshNodes]

omit [DecidableEq K] in
theorem size_freshNodes {n : Nat} (hn : 0 < n) (t : SQTable K V) :
    (freshNodes o n t).size = n := by
  simp only [size, freshNodes, allocNodes]
  omega

/-- New nodes represent the empty map. -/
theorem represents_freshNodes {n : Nat} (hn : ∃ b, n = 2 ^ b) (t : SQTable K V) :
    Represents o (freshNodes o n t) ∅ := by
  apply represents_empty
  · exact fun i => rfl
  · exact fun i => rfl
  · exact le_refl _
  · rfl
  · obtain ⟨b, rfl⟩ := hn
    exact ⟨b, size_freshNodes (Nat.two_pow_pos b) t⟩

omit [DecidableEq K] in
theorem dense_freshNodes (n : Nat) (t : SQTable K V) : Dense (freshNodes o n t) where
  next_none _ := rfl
  full h1 h2 := absurd h1 (Nat.not_lt.2 h2)

/-- A rehash into a new array that is large enough keeps the finite map; it needs one level of
calls. -/
theorem rehash_spec (S : Stores t m) {force : Bool} {n : Nat} (hr : rehashSize force t = some n)
    (hlt : m.keys.card < n) (hb : ∃ b, n = 2 ^ b) (depth : Nat) :
    ∃ t', rehash o (newSlot o (depth + 1)) force t = some t' ∧ Represents o t' m ∧ Dense t' := by
  have hsize : (freshNodes o n t).size = n := size_freshNodes (by omega) t
  obtain ⟨t', m', he, R', D', -, hm'⟩ :=
    foldlM_reinsertNode S (represents_freshNodes hb t) (dense_freshNodes n t)
      (by rw [hsize]; exact hlt) depth t.size
  have hmm : m' = m := by
    apply Finmap.ext_lookup
    intro k
    apply Option.ext
    intro v
    rw [hm', ← S.holds]
    constructor
    · rintro ⟨i, -, h1, h2⟩
      exact ⟨i, h1, h2⟩
    · rintro ⟨i, h1, h2⟩
      exact ⟨i, Nat.lt_succ_of_le (S.key_le h1), h1, h2⟩
  exact ⟨t', by rw [rehash_of_some hr, he], hmm ▸ R', D'⟩

/-- A rehash of either kind keeps the finite map. -/
theorem rehash_represents (R : Represents o t m) (depth : Nat) (force : Bool) :
    ∃ t', rehash o (newSlot o (depth + 1)) force t = some t' ∧ Represents o t' m := by
  cases hr : rehashSize force t with
  | none => exact ⟨t, rehash_of_none hr _, R⟩
  | some n =>
    have hc : m.keys.card ≤ t.usednodes + 1 := by
      rw [R.usednodes_eq]
      exact Nat.le_succ _
    obtain ⟨hlt, hb⟩ := rehashSize_some hr hc R.stores.card_le_size R.size_pow
    obtain ⟨t', he, R', -⟩ := rehash_spec R.stores hr hlt hb depth
    exact ⟨t', he, R'⟩

omit [DecidableEq K] in
/-- A forced rehash always takes a new array. -/
theorem rehashSize_force (t : SQTable K V) : ∃ n, rehashSize true t = some n := by
  unfold rehashSize
  dsimp only
  split
  · exact ⟨_, rfl⟩
  · split
    · exact ⟨_, rfl⟩
    · exact ⟨_, rfl⟩

/-- The table that a `NewSlot` which placed its key and found no free node rehashes. -/
theorem Placed.stores_insert {t' : SQTable K V} {k : K} {mp : Nat} (P : Placed o t k t' mp)
    (R : Represents o t m) : Stores { t' with firstfree := 0 } (m.insert k (t'.valAt mp)) := by
  have S := P.stores R.stores
  exact ⟨S.key_le, S.key_inj, S.holds⟩

/-- The array of such a rehash has a node more than there are keys, so it has two or more. -/
theorem Placed.rehashSize {t' : SQTable K V} {k : K} {mp : Nat} (P : Placed o t k t' mp)
    (R : Represents o t m) (hnew : k ∉ m) :
    ∃ a, Table.rehashSize true { t' with firstfree := 0 } = some (2 ^ (a + 1)) ∧
      (m.insert k (t'.valAt mp)).keys.card < 2 ^ (a + 1) := by
  have hc : (m.insert k (t'.valAt mp)).keys.card ≤ t'.usednodes + 1 := by
    rw [card_keys_insert hnew, P.usednodes_eq, R.usednodes_eq]
  have hpow : ∃ b, ({ t' with firstfree := 0 } : SQTable K V).size = 2 ^ b := by
    obtain ⟨b, hb⟩ := R.size_pow
    refine ⟨b, ?_⟩
    rw [← hb, size, size]
    show t'.numofnodesMinusOne + 1 = t.numofnodesMinusOne + 1
    rw [P.numofnodes_eq]
  obtain ⟨n, hn⟩ := rehashSize_force { t' with firstfree := 0 }
  obtain ⟨hlt, b, rfl⟩ := rehashSize_some hn hc (P.stores_insert R).card_le_size hpow
  cases b with
  | zero =>
    rw [card_keys_insert hnew] at hlt
    exact absurd hlt (by simp)
  | succ a => exact ⟨a, hn, hlt⟩

/-- A rehash behind a placed key keeps the map. -/
theorem Placed.rehash {t' : SQTable K V} {k : K} {mp : Nat} (P : Placed o t k t' mp)
    (R : Represents o t m) (hnew : k ∉ m) (depth : Nat) :
    ∃ t3, Table.rehash o (newSlot o (depth + 1)) true { t' with firstfree := 0 } = some t3 ∧
      Represents o t3 (m.insert k (t'.valAt mp)) ∧ Dense t3 := by
  obtain ⟨a, hn, hlt⟩ := P.rehashSize R hnew
  exact rehash_spec (P.stores_insert R) hn hlt ⟨a + 1, rfl⟩ depth

/-- `NewSlot` stores the value under the key, for a present and for a new key. -/
theorem newSlot_represents (R : Represents o t m) (depth : Nat) (k : K) (v : V) :
    ∃ t' b, newSlot o (depth + 2) t k v = some (t', b) ∧ Represents o t' (m.insert k v) := by
  rcases newSlot_cases R.wf (depth + 1) k v with
    ⟨i, hi, he⟩ | ⟨hnew, t', mp, P, ⟨f, hf, he⟩ | ⟨hf, he⟩⟩
  · exact ⟨_, _, he, R.setVal hi v⟩
  · exact ⟨_, _, he, P.represents R (R.stores.not_mem_iff.2 hnew) hf v⟩
  · -- no free node: the key is in the table already, and the second call stores the value
    obtain ⟨t3, he3, R3, -⟩ := P.rehash R (R.stores.not_mem_iff.2 hnew) depth
    obtain ⟨i, hi⟩ := R3.stores.mem_iff.1 (Finmap.mem_insert.2 (.inl rfl))
    have R' := R3.setVal hi v
    rw [Finmap.insert_insert] at R'
    refine ⟨t3.setVal i v, false, ?_, R'⟩
    rw [he, he3]
    exact newSlot_of_key R3.wf hi depth v

/-- A new key in a table without dead nodes: it is placed, or it takes the last node and the table
is rehashed. -/
theorem newSlot_new (R : Represents o t m) (D : Dense t) {k : K} (hnew : k ∉ m) {v : V}
    {depth : Nat} {t' : SQTable K V} {b : Bool}
    (h : newSlot o (depth + 2) t k v = some (t', b)) :
    (m.keys.card + 1 < t.size ∧ ∃ t1 mp f, Placed o t k t1 mp ∧
        correctFirstfree t1 t1.firstfree = some f ∧ t' = finishSlot o t1 f k v mp) ∨
      (m.keys.card + 1 = t.size ∧ ∃ t1 mp t3 i, Placed o t k t1 mp ∧
        rehash o (newSlot o (depth + 1)) true { t1 with firstfree := 0 } = some t3 ∧
        Represents o t3 (m.insert k (t1.valAt mp)) ∧ Dense t3 ∧ t3.keyAt i = some k ∧
        t' = t3.setVal i v) := by
  rcases newSlot_cases R.wf (depth + 1) k v with
    ⟨i, hi, -⟩ | ⟨-, t1, mp, P, ⟨f, hf, he⟩ | ⟨hf, he⟩⟩
  · exact absurd hi (R.stores.not_mem_iff.1 hnew i)
  · rw [he, Option.some.injEq, Prod.mk.injEq] at h
    obtain ⟨hle, hfree, -⟩ := correctFirstfree_some hf
    have hle' : f ≤ t1.numofnodesMinusOne := by
      rw [P.numofnodes_eq]
      rw [P.firstfree_eq] at hle
      exact hle.trans R.wf.firstfree_le
    have hlt := (P.stores R.stores).card_lt_size hle' (isFree_iff.1 hfree).1
    rw [card_keys_insert hnew, size, P.numofnodes_eq] at hlt
    exact .inl ⟨hlt, t1, mp, f, P, hf, h.1.symm⟩
  · have hge := (P.stores R.stores).size_le_card (P.full_of_none D hf)
    have hle := (P.stores R.stores).card_le_size
    rw [card_keys_insert hnew, size, P.numofnodes_eq] at hge hle
    obtain ⟨t3, he3, R3, D3⟩ := P.rehash R hnew depth
    obtain ⟨i, hi⟩ := R3.stores.mem_iff.1 (Finmap.mem_insert.2 (.inl rfl))
    rw [he, he3] at h
    have h' : newSlot o (depth + 1) t3 k v = some (t', b) := h
    rw [newSlot_of_key R3.wf hi depth v, Option.some.injEq, Prod.mk.injEq] at h'
    exact .inr ⟨le_antisymm hle hge, t1, mp, t3, i, P, he3, R3, D3, hi, h'.1.symm⟩

omit [DecidableEq K] in
theorem Dense.setVal (D : Dense t) (i : Nat) (v : V) : Dense (t.setVal i v) := by
  constructor
  case next_none =>
    intro j hj
    rw [keyAt_setVal] at hj
    rw [nextAt_setVal]
    exact D.next_none hj
  case full =>
    intro j h1 h2
    rw [keyAt_setVal]
    exact D.full h1 h2

/-- `NewSlot` of a new key into a dense table adds it to the map. -/
theorem newSlot_represents_dense (R : Represents o t m) (D : Dense t) {k : K} (hnew : k ∉ m)
    {v : V} {depth : Nat} {t' : SQTable K V} {b : Bool}
    (h : newSlot o (depth + 2) t k v = some (t', b)) :
    Represents o t' (m.insert k v) ∧ Dense t' := by
  rcases newSlot_new R D hnew h with
    ⟨-, t1, mp, f, P, hf, rfl⟩ | ⟨-, t1, mp, t3, i, -, -, R3, D3, hi, rfl⟩
  · exact ⟨P.represents R hnew hf v, P.dense D hf v⟩
  · have R' := R3.setVal hi v
    rw [Finmap.insert_insert] at R'
    exact ⟨R', D3.setVal i v⟩

end

end Quirrel.Table
