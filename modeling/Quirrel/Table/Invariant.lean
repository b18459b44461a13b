import Quirrel.Lib.Scatter
import Quirrel.Table.Basic

/-!
# The node layout of `SQTable`

`WellFormed` is the invariant of the node array: the nodes are a chained scatter layout
(`Lib.Linked`), and `_firstfree` is a free node below every node that is linked from another one.
Under it a lookup ends at the node that holds the key (`getNode_of_key`, `getNode_of_absent`), the
search for a predecessor succeeds, and `placeKey` has three cases (`placeKey_cases`), each of which
keeps the layout.
-/

set_option autoImplicit false

namespace Quirrel.Table

open Quirrel.Lib

universe u v

variable {K : Type u} {V : Type v}

namespace SQTable

variable (t : SQTable K V)

/-- The key a node holds. -/
def keyAt (i : Nat) : Option K := (t.nodes i).key

/-- The link of a node. -/
def nextAt (i : Nat) : Option Nat := (t.nodes i).next

/-- The value of a node. -/
def valAt (i : Nat) : V := (t.nodes i).val

@[simp] theorem keyAt_setNode (i : Nat) (n : HashNode K V) :
    (t.setNode i n).keyAt = Function.update t.keyAt i n.key := by
  funext j
  by_cases h : j = i <;> simp [keyAt, setNode, h]

@[simp] theorem nextAt_setNode (i : Nat) (n : HashNode K V) :
    (t.setNode i n).nextAt = Function.update t.nextAt i n.next := by
  funext j
  by_cases h : j = i <;> simp [nextAt, setNode, h]

@[simp] theorem valAt_setNode (i : Nat) (n : HashNode K V) :
    (t.setNode i n).valAt = Function.update t.valAt i n.val := by
  funext j
  by_cases h : j = i <;> simp [valAt, setNode, h]

@[simp] theorem firstfree_setNode (i : Nat) (n : HashNode K V) :
    (t.setNode i n).firstfree = t.firstfree := rfl

@[simp] theorem numofnodesMinusOne_setNode (i : Nat) (n : HashNode K V) :
    (t.setNode i n).numofnodesMinusOne = t.numofnodesMinusOne := rfl

@[simp] theorem usednodes_setNode (i : Nat) (n : HashNode K V) :
    (t.setNode i n).usednodes = t.usednodes := rfl

@[simp] theorem classTypeId_setNode (i : Nat) (n : HashNode K V) :
    (t.setNode i n).classTypeId = t.classTypeId := rfl

@[simp] theorem recorded_setNode (i : Nat) (n : HashNode K V) :
    (t.setNode i n).recorded = t.recorded := rfl

@[simp] theorem keyAt_setKey (i : Nat) (k : Option K) :
    (t.setKey i k).keyAt = Function.update t.keyAt i k := by
  rw [setKey, keyAt_setNode]

@[simp] theorem nextAt_setKey (i : Nat) (k : Option K) : (t.setKey i k).nextAt = t.nextAt := by
  rw [setKey, nextAt_setNode]
  exact Function.update_eq_self i t.nextAt

@[simp] theorem valAt_setKey (i : Nat) (k : Option K) : (t.setKey i k).valAt = t.valAt := by
  rw [setKey, valAt_setNode]
  exact Function.update_eq_self i t.valAt

@[simp] theorem keyAt_setVal (i : Nat) (v : V) : (t.setVal i v).keyAt = t.keyAt := by
  rw [setVal, keyAt_setNode]
  exact Function.update_eq_self i t.keyAt

@[simp] theorem nextAt_setVal (i : Nat) (v : V) : (t.setVal i v).nextAt = t.nextAt := by
  rw [setVal, nextAt_setNode]
  exact Function.update_eq_self i t.nextAt

@[simp] theorem valAt_setVal (i : Nat) (v : V) :
    (t.setVal i v).valAt = Function.update t.valAt i v := by
  rw [setVal, valAt_setNode]

@[simp] theorem keyAt_setNext (i : Nat) (n : Option Nat) : (t.setNext i n).keyAt = t.keyAt := by
  rw [setNext, keyAt_setNode]
  exact Function.update_eq_self i t.keyAt

@[simp] theorem nextAt_setNext (i : Nat) (n : Option Nat) :
    (t.setNext i n).nextAt = Function.update t.nextAt i n := by
  rw [setNext, nextAt_setNode]

@[simp] theorem valAt_setNext (i : Nat) (n : Option Nat) : (t.setNext i n).valAt = t.valAt := by
  rw [setNext, valAt_setNode]
  exact Function.update_eq_self i t.valAt

@[simp] theorem keyAt_mk (f n u : Nat) (c : UInt64) (r : List (Nat × K)) :
    keyAt ⟨f, t.nodes, n, u, c, r⟩ = t.keyAt := rfl

@[simp] theorem nextAt_mk (f n u : Nat) (c : UInt64) (r : List (Nat × K)) :
    nextAt ⟨f, t.nodes, n, u, c, r⟩ = t.nextAt := rfl

@[simp] theorem valAt_mk (f n u : Nat) (c : UInt64) (r : List (Nat × K)) :
    valAt ⟨f, t.nodes, n, u, c, r⟩ = t.valAt := rfl

end SQTable

open SQTable

variable (o : ObjectOps K V)

/-- A free node has neither key nor link. -/
theorem isFree_iff {t : SQTable K V} {i : Nat} :
    isFree t i = true ↔ t.keyAt i = none ∧ t.nextAt i = none := by
  simp [isFree, keyAt, nextAt]

/-- The node array is a scatter layout, and `_firstfree` is a free node below every linked one. -/
structure WellFormed (t : SQTable K V) : Prop where
  linked : Linked (mainPosition o t) t.keyAt t.nextAt
  key_le : ∀ {i k}, t.keyAt i = some k → i ≤ t.numofnodesMinusOne
  next_le : ∀ {i j}, t.nextAt i = some j → i ≤ t.numofnodesMinusOne ∧ j ≤ t.numofnodesMinusOne
  firstfree_le : t.firstfree ≤ t.numofnodesMinusOne
  free : t.keyAt t.firstfree = none ∧ t.nextAt t.firstfree = none
  next_gt : ∀ {i j}, t.nextAt i = some j → t.firstfree < j

/-- The main position is in the node array. -/
theorem mainPosition_le (t : SQTable K V) (k : K) : mainPosition o t k ≤ t.numofnodesMinusOne :=
  Nat.and_le_right

variable {o}

namespace WellFormed

variable {t : SQTable K V}

/-- The nodes from the last free one on are in no chain. -/
theorem isolated (W : WellFormed o t) : Isolated t.keyAt t.nextAt t.firstfree where
  key_none := W.free.1
  next_none := W.free.2
  not_next _ h := absurd (W.next_gt h) (Nat.lt_irrefl _)

/-- A walk from a node of the table has at most as many elements as the table has nodes. -/
theorem walk_length_le (W : WellFormed o t) {i : Nat} {l : List Nat}
    (hi : i ≤ t.numofnodesMinusOne) (hw : Walk t.nextAt i l) : l.length ≤ t.size := by
  have hmem : ∀ j ∈ l, j ∈ Finset.range t.size := by
    intro j hj
    rw [Finset.mem_range, size]
    by_cases hji : j = i
    · omega
    · obtain ⟨k, -, hk⟩ := hw.mem_pred hj hji
      have := (W.next_le hk).2
      omega
  have hcard := hw.length_le_card _ hmem
  rwa [Finset.card_range] at hcard

/-- Nodes outside of the array were never written. -/
theorem outside (W : WellFormed o t) {i : Nat} (hi : ¬ i ≤ t.numofnodesMinusOne) :
    t.keyAt i = none ∧ t.nextAt i = none := by
  constructor
  · by_contra h
    obtain ⟨k, hk⟩ := Option.ne_none_iff_exists'.1 h
    exact hi (W.key_le hk)
  · by_contra h
    obtain ⟨j, hj⟩ := Option.ne_none_iff_exists'.1 h
    exact hi (W.next_le hj).1

/-- A key that is away from its main position sits above `_firstfree`. -/
theorem firstfree_lt_of_moved (W : WellFormed o t) {i : Nat} {k : K} (hk : t.keyAt i = some k)
    (hne : mainPosition o t k ≠ i) : t.firstfree < i := by
  obtain ⟨l, hw, hi⟩ := W.linked.reach hk
  obtain ⟨p, -, hp⟩ := hw.mem_pred hi hne.symm
  exact W.next_gt hp

end WellFormed

/-! ## Lookup -/

section Lookup

variable [DecidableEq K] {t : SQTable K V}

/-- With enough rounds the lookup loop finds the first node of the chain that holds the key. -/
theorem getLoop_of_walk (k : K) {i : Nat} {l : List Nat} (hw : Walk t.nextAt i l) {fuel : Nat}
    (hf : l.length ≤ fuel) :
    getLoop t k fuel i = some (l.find? fun j => t.keyAt j = some k) := by
  induction hw generalizing fuel with
  | @stop i hn =>
    cases fuel with
    | zero => exact absurd hf (by simp)
    | succ fuel =>
      have hn' : (t.nodes i).next = none := hn
      by_cases hk : (t.nodes i).key = some k <;> simp [getLoop, keyAt, hk, hn']
  | @step i j l hs hw ih =>
    cases fuel with
    | zero => exact absurd hf (by simp)
    | succ fuel =>
      have hs' : (t.nodes i).next = some j := hs
      have hl : l.length ≤ fuel := by simpa using hf
      by_cases hk : (t.nodes i).key = some k
      · simp [getLoop, keyAt, hk]
      · have hk' : ¬ t.keyAt i = some k := hk
        rw [getLoop, if_neg hk, hs', List.find?_cons_of_neg (by simpa using hk')]
        exact ih hl

/-- A lookup ends, and it examines the chain of the main position of the key. -/
theorem getNode_eq_find (W : WellFormed o t) (k : K) :
    ∃ l, Walk t.nextAt (mainPosition o t k) l ∧
      getNode o t k = some (l.find? fun j => t.keyAt j = some k) := by
  obtain ⟨l, hw⟩ := W.linked.walk (mainPosition o t k)
  exact ⟨l, hw, getLoop_of_walk k hw (W.walk_length_le (mainPosition_le o t k) hw)⟩

/-- The chain of a key leads to the node that holds it. -/
theorem getNode_of_key (W : WellFormed o t) {i : Nat} {k : K} (hk : t.keyAt i = some k) :
    getNode o t k = some (some i) := by
  obtain ⟨l, hw, hg⟩ := getNode_eq_find W k
  obtain ⟨l', hw', hi⟩ := W.linked.reach hk
  obtain rfl := hw.unique hw'
  rw [hg]
  cases hfind : l.find? fun j => t.keyAt j = some k with
  | none =>
    have := List.find?_eq_none.1 hfind i hi
    exact absurd hk (by simpa using this)
  | some j =>
    have hj : t.keyAt j = some k := by simpa using List.find?_some hfind
    rw [W.linked.key_inj hj hk]

/-- The chain of a key that is in no node ends without it. -/
theorem getNode_of_absent (W : WellFormed o t) {k : K} (hk : ∀ i, t.keyAt i ≠ some k) :
    getNode o t k = some none := by
  obtain ⟨l, -, hg⟩ := getNode_eq_find W k
  rw [hg, List.find?_eq_none.2 fun j _ => by simpa using hk j]

/-- A lookup finds a node that holds the key, or the key is in no node. -/
theorem getNode_cases (W : WellFormed o t) (k : K) :
    (∃ i, t.keyAt i = some k ∧ getNode o t k = some (some i)) ∨
      ((∀ i, t.keyAt i ≠ some k) ∧ getNode o t k = some none) := by
  by_cases h : ∃ i, t.keyAt i = some k
  · obtain ⟨i, hi⟩ := h
    exact .inl ⟨i, hi, getNode_of_key W hi⟩
  · have habs : ∀ i, t.keyAt i ≠ some k := fun i hi => h ⟨i, hi⟩
    exact .inr ⟨habs, getNode_of_absent W habs⟩

end Lookup

/-! ## Finding a place -/

/-- The search for the predecessor of a node ends when the node is met on the walk. -/
theorem findPrevious_of_walk {t : SQTable K V} {mp i : Nat} {l : List Nat}
    (hw : Walk t.nextAt i l) (hmem : mp ∈ l) (hne : mp ≠ i) {fuel : Nat}
    (hf : l.length ≤ fuel) :
    ∃ p, findPrevious t mp fuel i = some p ∧ t.nextAt p = some mp := by
  induction hw generalizing fuel with
  | @stop i hn => exact absurd (List.mem_singleton.1 hmem) hne
  | @step i j l hs hw ih =>
    cases fuel with
    | zero => exact absurd hf (by simp)
    | succ fuel =>
      have hs' : (t.nodes i).next = some j := hs
      by_cases hj : j = mp
      · exact ⟨i, by simp [findPrevious, hs', hj], by rw [hs, hj]⟩
      · have hl : l.length ≤ fuel := by simpa using hf
        have hm : mp ∈ l := by
          rcases List.mem_cons.1 hmem with h | h
          · exact absurd h hne
          · exact h
        obtain ⟨p, hp, hnp⟩ := ih hm (Ne.symm hj) hl
        exact ⟨p, by simp [findPrevious, hs', hj, hp], hnp⟩

/-- The table after the key `c` at its main position `h` got a successor in the free node. -/
def chained (t : SQTable K V) (h : Nat) : SQTable K V :=
  (t.setNext t.firstfree (t.nodes h).next).setNext h (some t.firstfree)

/-- The table after the key `c` moved from `h` to the free node, behind its predecessor `p`. -/
def displaced (o : ObjectOps K V) (t : SQTable K V) (h p : Nat) (c : K) : SQTable K V :=
  let t1 := t.setNext p (some t.firstfree)
  (t1.setNode t.firstfree ⟨(t1.nodes h).val, some c, (t1.nodes h).next⟩).setNode h (emptyNode o)

/-- What `placeKey` does to a well-formed table: the main position is empty, or it holds a key of
its own, or it holds a key whose main position is another one. -/
theorem placeKey_cases {t : SQTable K V} (W : WellFormed o t) (h : Nat) :
    (t.keyAt h = none ∧ placeKey o t h = some (t, h)) ∨
    (∃ c, t.keyAt h = some c ∧ mainPosition o t c = h ∧
      placeKey o t h = some (chained t h, t.firstfree)) ∨
    (∃ c p, t.keyAt h = some c ∧ mainPosition o t c ≠ h ∧ t.nextAt p = some h ∧
      placeKey o t h = some (displaced o t h p c, h)) := by
  cases hk : t.keyAt h with
  | none =>
    have hk' : (t.nodes h).key = none := hk
    exact .inl ⟨rfl, by simp [placeKey, hk']⟩
  | some c =>
    have hk' : (t.nodes h).key = some c := hk
    by_cases hc : mainPosition o t c = h
    · refine .inr (.inl ⟨c, rfl, hc, ?_⟩)
      simp [placeKey, hk', hc, chained]
    · -- a moved key is above `_firstfree`, so the first conjunct of the test holds
      have hlt : h > t.firstfree := W.firstfree_lt_of_moved hk hc
      obtain ⟨l, hw, hh⟩ := W.linked.reach hk
      have hlen := W.walk_length_le (mainPosition_le o t c) hw
      obtain ⟨p, hp, hnp⟩ := findPrevious_of_walk hw hh (Ne.symm hc) hlen
      refine .inr (.inr ⟨c, p, rfl, hc, hnp, ?_⟩)
      simp [placeKey, hk', hlt, hc, hp, displaced]

section Layout

variable {t : SQTable K V} {h p : Nat} {c : K}

/-- The new node gets its key after it is chained. -/
theorem keyAt_chained : (chained t h).keyAt = t.keyAt := by simp [chained]

theorem valAt_chained : (chained t h).valAt = t.valAt := by simp [chained]

/-- The new node comes second in the chain. -/
theorem nextAt_chained : (chained t h).nextAt = linkAfter t.nextAt h t.firstfree := by
  simp [chained, linkAfter, nextAt]

/-- The displaced key moves to the free node. -/
theorem keyAt_displaced :
    (displaced o t h p c).keyAt =
      Function.update (Function.update t.keyAt t.firstfree (some c)) h none := by
  simp [displaced, emptyNode]

theorem valAt_displaced :
    (displaced o t h p c).valAt =
      Function.update (Function.update t.valAt t.firstfree (t.valAt h)) h o.null := by
  have hv : ((t.setNext p (some t.firstfree)).nodes h).val = t.valAt h :=
    congrFun (valAt_setNext t p (some t.firstfree)) h
  simp [displaced, emptyNode, hv]

/-- The chain of the displaced key runs through the free node. -/
theorem nextAt_displaced (hp : p ≠ h) :
    (displaced o t h p c).nextAt = relink t.nextAt p h t.firstfree := by
  have hn : ((t.setNext p (some t.firstfree)).nodes h).next = t.nextAt h := by
    have hset := congrFun (nextAt_setNext t p (some t.firstfree)) h
    rw [Function.update_of_ne hp.symm] at hset
    exact hset
  simp [displaced, emptyNode, relink, hn]

end Layout

/-! ## Placing a new key -/

/-- The node array holds `v` under `k`. -/
def SQTable.Holds (t : SQTable K V) (k : K) (v : V) : Prop :=
  ∃ i, t.keyAt i = some k ∧ t.valAt i = v

/-- `t'` is `t` with the new key `k` placed in node `mp`, before `_firstfree` is corrected. -/
structure Placed (o : ObjectOps K V) (t : SQTable K V) (k : K) (t' : SQTable K V) (mp : Nat) :
    Prop where
  linked : Linked (mainPosition o t') t'.keyAt t'.nextAt
  key_le : ∀ {i k}, t'.keyAt i = some k → i ≤ t'.numofnodesMinusOne
  next_le : ∀ {i j}, t'.nextAt i = some j → i ≤ t'.numofnodesMinusOne ∧ j ≤ t'.numofnodesMinusOne
  next_ge : ∀ {i j}, t'.nextAt i = some j →
    t'.firstfree ≤ j ∧ (j = t'.firstfree → t'.keyAt t'.firstfree ≠ none)
  key_mp : t'.keyAt mp = some k
  keeps : ∀ {k' v}, k' ≠ k → (t'.Holds k' v ↔ t.Holds k' v)
  firstfree_eq : t'.firstfree = t.firstfree
  numofnodes_eq : t'.numofnodesMinusOne = t.numofnodesMinusOne
  usednodes_eq : t'.usednodes = t.usednodes
  classTypeId_eq : t'.classTypeId = t.classTypeId
  recorded_eq : t'.recorded = t.recorded
  /-- A node is neither emptied nor, while it is empty, linked to another one. -/
  free_of_free : ∀ {i}, t'.keyAt i = none →
    t.keyAt i = none ∧ (t.nextAt i = none → t'.nextAt i = none)

/-- A key whose main position is free goes there. -/
theorem placed_put {t : SQTable K V} (W : WellFormed o t) {k : K} (hnew : ∀ i, t.keyAt i ≠ some k)
    (hh : t.keyAt (mainPosition o t k) = none) :
    Placed o t k (t.setKey (mainPosition o t k) (some k)) (mainPosition o t k) := by
  constructor
  case linked =>
    rw [keyAt_setKey, nextAt_setKey]
    exact W.linked.put hnew
  case key_le =>
    intro i k' hk
    rw [keyAt_setKey] at hk
    by_cases hi : i = mainPosition o t k
    · rw [hi]
      exact mainPosition_le o t k
    · exact W.key_le (by simpa [hi] using hk)
  case next_le => intro i j hj; exact W.next_le (by simpa using hj)
  case next_ge =>
    intro i j hj
    have hlt : t.firstfree < j := W.next_gt (by simpa using hj)
    exact ⟨hlt.le, fun hjf => absurd hjf hlt.ne'⟩
  case key_mp => simp
  case keeps =>
    intro k' v hne
    have hiff : ∀ i, (t.setKey (mainPosition o t k) (some k)).keyAt i = some k' ↔
        t.keyAt i = some k' := by
      intro i
      rw [keyAt_setKey]
      by_cases hi : i = mainPosition o t k
      · subst hi
        simp [hh, hne.symm]
      · simp [hi]
    simp only [Holds, hiff, valAt_setKey]
  case firstfree_eq => rfl
  case numofnodes_eq => rfl
  case usednodes_eq => rfl
  case classTypeId_eq => rfl
  case recorded_eq => rfl
  case free_of_free =>
    intro i hi
    rw [keyAt_setKey] at hi
    by_cases him : i = mainPosition o t k
    · simp [him] at hi
    · exact ⟨by simpa [him] using hi, fun hn => by simpa using hn⟩

/-- A key that collides in its own chain takes the free node. -/
theorem placed_chained {t : SQTable K V} (W : WellFormed o t) {k c : K}
    (hnew : ∀ i, t.keyAt i ≠ some k) (hc : t.keyAt (mainPosition o t k) = some c)
    (hcm : mainPosition o t c = mainPosition o t k) :
    Placed o t k ((chained t (mainPosition o t k)).setKey t.firstfree (some k)) t.firstfree := by
  have hne : t.firstfree ≠ mainPosition o t k := by
    intro h
    have := W.free.1
    rw [h, hc] at this
    exact absurd this (by simp)
  have hhle := mainPosition_le o t k
  -- the links are the old ones, `h → n` and `n → next h`
  have hcase : ∀ {i j}, linkAfter t.nextAt (mainPosition o t k) t.firstfree i = some j →
      (i = mainPosition o t k ∧ j = t.firstfree) ∨
        (i = t.firstfree ∧ t.nextAt (mainPosition o t k) = some j) ∨ t.nextAt i = some j := by
    intro i j h
    by_cases hi : i = mainPosition o t k
    · subst hi
      rw [linkAfter_head] at h
      exact .inl ⟨rfl, (Option.some.inj h).symm⟩
    · by_cases hin : i = t.firstfree
      · subst hin
        rw [linkAfter_self hne] at h
        exact .inr (.inl ⟨rfl, h⟩)
      · rw [linkAfter_other hi hin] at h
        exact .inr (.inr h)
  constructor
  case linked =>
    rw [keyAt_setKey, nextAt_setKey, keyAt_chained, nextAt_chained]
    exact W.linked.chain hc hcm W.isolated hnew
  case key_le =>
    intro i k' hk
    rw [keyAt_setKey, keyAt_chained] at hk
    by_cases hi : i = t.firstfree
    · rw [hi]
      exact W.firstfree_le
    · exact W.key_le (by simpa [hi] using hk)
  case next_le =>
    intro i j hj
    rw [nextAt_setKey, nextAt_chained] at hj
    rcases hcase hj with ⟨rfl, rfl⟩ | ⟨rfl, h⟩ | h
    · exact ⟨hhle, W.firstfree_le⟩
    · exact ⟨W.firstfree_le, (W.next_le h).2⟩
    · exact W.next_le h
  case next_ge =>
    intro i j hj
    rw [nextAt_setKey, nextAt_chained] at hj
    refine ⟨?_, fun _ => ?_⟩
    · show t.firstfree ≤ j
      rcases hcase hj with ⟨-, rfl⟩ | ⟨-, h⟩ | h
      · exact le_refl _
      · exact (W.next_gt h).le
      · exact (W.next_gt h).le
    · show ((chained t (mainPosition o t k)).setKey t.firstfree (some k)).keyAt t.firstfree ≠ none
      simp
  case key_mp => simp
  case keeps =>
    intro k' v hkk
    have hiff : ∀ i, ((chained t (mainPosition o t k)).setKey t.firstfree (some k)).keyAt i =
        some k' ↔ t.keyAt i = some k' := by
      intro i
      rw [keyAt_setKey, keyAt_chained]
      by_cases hi : i = t.firstfree
      · subst hi
        simp [W.free.1, hkk.symm]
      · simp [hi]
    simp only [Holds, hiff, valAt_setKey, valAt_chained]
  case firstfree_eq => rfl
  case numofnodes_eq => rfl
  case usednodes_eq => rfl
  case classTypeId_eq => rfl
  case recorded_eq => rfl
  case free_of_free =>
    intro i hi
    rw [keyAt_setKey, keyAt_chained] at hi
    by_cases hin : i = t.firstfree
    · simp [hin] at hi
    · have hi' : t.keyAt i = none := by simpa [hin] using hi
      have hih : i ≠ mainPosition o t k := fun h => by rw [h, hc] at hi'; exact absurd hi' (by simp)
      refine ⟨hi', fun hn => ?_⟩
      rw [nextAt_setKey, nextAt_chained, linkAfter_other hih hin, hn]

/-- A key whose main position holds a key of another chain displaces it. -/
theorem placed_displaced {t : SQTable K V} (W : WellFormed o t) {k c : K} {p : Nat}
    (hnew : ∀ i, t.keyAt i ≠ some k) (hc : t.keyAt (mainPosition o t k) = some c)
    (hcm : mainPosition o t c ≠ mainPosition o t k)
    (hp : t.nextAt p = some (mainPosition o t k)) :
    Placed o t k
      ((displaced o t (mainPosition o t k) p c).setKey (mainPosition o t k) (some k))
      (mainPosition o t k) := by
  have hne : t.firstfree ≠ mainPosition o t k := by
    intro h
    have := W.free.1
    rw [h, hc] at this
    exact absurd this (by simp)
  have hph : p ≠ mainPosition o t k := fun h => W.linked.next_ne_self hp h.symm
  have hpn : p ≠ t.firstfree := by
    intro h
    rw [h, W.free.2] at hp
    exact absurd hp (by simp)
  have hkey : ((displaced o t (mainPosition o t k) p c).setKey (mainPosition o t k)
      (some k)).keyAt =
        Function.update (Function.update t.keyAt t.firstfree (some c)) (mainPosition o t k)
          (some k) := by
    rw [keyAt_setKey, keyAt_displaced, Function.update_idem]
  -- the links are the old ones, `p → n` and `n → next h`
  have hcase : ∀ {i j}, relink t.nextAt p (mainPosition o t k) t.firstfree i = some j →
      (i = p ∧ j = t.firstfree) ∨
        (i = t.firstfree ∧ t.nextAt (mainPosition o t k) = some j) ∨ t.nextAt i = some j := by
    intro i j h
    by_cases hi : i = mainPosition o t k
    · subst hi
      rw [relink_old] at h
      exact absurd h (by simp)
    · by_cases hin : i = t.firstfree
      · subst hin
        rw [relink_new hne] at h
        exact .inr (.inl ⟨rfl, h⟩)
      · by_cases hip : i = p
        · subst hip
          rw [relink_pred hpn hph] at h
          exact .inl ⟨rfl, (Option.some.inj h).symm⟩
        · rw [relink_other hip hi hin] at h
          exact .inr (.inr h)
  constructor
  case linked =>
    rw [hkey, nextAt_setKey, nextAt_displaced hph]
    exact W.linked.displace hc hcm hp W.isolated hnew
  case key_le =>
    intro i k' hk
    rw [hkey] at hk
    by_cases hi : i = mainPosition o t k
    · rw [hi]
      exact mainPosition_le o t k
    · by_cases hin : i = t.firstfree
      · rw [hin]
        exact W.firstfree_le
      · exact W.key_le (by simpa [hi, hin] using hk)
  case next_le =>
    intro i j hj
    rw [nextAt_setKey, nextAt_displaced hph] at hj
    rcases hcase hj with ⟨rfl, rfl⟩ | ⟨rfl, h⟩ | h
    · exact ⟨(W.next_le hp).1, W.firstfree_le⟩
    · exact ⟨W.firstfree_le, (W.next_le h).2⟩
    · exact W.next_le h
  case next_ge =>
    intro i j hj
    rw [nextAt_setKey, nextAt_displaced hph] at hj
    refine ⟨?_, fun _ => ?_⟩
    · show t.firstfree ≤ j
      rcases hcase hj with ⟨-, rfl⟩ | ⟨-, h⟩ | h
      · exact le_refl _
      · exact (W.next_gt h).le
      · exact (W.next_gt h).le
    · rw [hkey]
      show Function.update (Function.update t.keyAt t.firstfree (some c)) (mainPosition o t k)
        (some k) t.firstfree ≠ none
      simp [hne]
  case key_mp => rw [hkey]; simp
  case keeps =>
    intro k' v hkk
    simp only [Holds, hkey, valAt_setKey, valAt_displaced]
    constructor
    · rintro ⟨i, hi, hv⟩
      by_cases him : i = mainPosition o t k
      · subst him
        exact absurd (by simpa using hi) hkk.symm
      · by_cases hin : i = t.firstfree
        · -- the moved key is found at its old node
          subst hin
          obtain rfl : c = k' := by simpa [him] using hi
          exact ⟨_, hc, by simpa [him] using hv⟩
        · exact ⟨i, by simpa [him, hin] using hi, by simpa [him, hin] using hv⟩
    · rintro ⟨i, hi, hv⟩
      by_cases him : i = mainPosition o t k
      · subst him
        rw [hc] at hi
        obtain rfl := Option.some.inj hi
        exact ⟨t.firstfree, by simp [hne], by simpa [hne] using hv⟩
      · have hin : i ≠ t.firstfree := by
          intro h
          rw [h, W.free.1] at hi
          exact absurd hi (by simp)
        exact ⟨i, by simpa [him, hin] using hi, by simpa [him, hin] using hv⟩
  case firstfree_eq => rfl
  case numofnodes_eq => rfl
  case usednodes_eq => rfl
  case classTypeId_eq => rfl
  case recorded_eq => rfl
  case free_of_free =>
    intro i hi
    rw [hkey] at hi
    by_cases him : i = mainPosition o t k
    · simp [him] at hi
    · by_cases hin : i = t.firstfree
      · simp [hin, hne] at hi
      · have hi' : t.keyAt i = none := by simpa [him, hin] using hi
        refine ⟨hi', fun hn => ?_⟩
        have hip : i ≠ p := by
          intro h
          rw [h, hp] at hn
          exact absurd hn (by simp)
        rw [nextAt_setKey, nextAt_displaced hph, relink_other hip him hin, hn]

/-- A new key can always be placed. -/
theorem placeKey_placed {t : SQTable K V} (W : WellFormed o t) {k : K}
    (hnew : ∀ i, t.keyAt i ≠ some k) :
    ∃ t1 mp, placeKey o t (mainPosition o t k) = some (t1, mp) ∧
      Placed o t k (t1.setKey mp (some k)) mp := by
  rcases placeKey_cases W (mainPosition o t k) with ⟨hh, he⟩ | ⟨c, hc, hcm, he⟩ |
    ⟨c, p, hc, hcm, hp, he⟩
  · exact ⟨_, _, he, placed_put W hnew hh⟩
  · exact ⟨_, _, he, placed_chained W hnew hc hcm⟩
  · exact ⟨_, _, he, placed_displaced W hnew hc hcm hp⟩

end Quirrel.Table
