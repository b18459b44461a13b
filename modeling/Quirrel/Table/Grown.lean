import Quirrel.Table.Shape

/-!
# The shapes that have an id

`Grown o n us g` says that the shape `g` comes from an empty array of `n` nodes by insertions of the
new string keys `us`, with a non-zero `_classTypeId` after each. Every reachable table with a
non-zero `_classTypeId` has such a shape (`runOps_grown`): the operations that make a layout depend
on anything else set the id to zero, and a rehash that starts the id again fills an empty array.
-/

set_option autoImplicit false

namespace Quirrel.Table

open Quirrel.Lib SQTable

universe u v

variable {K : Type u} {V : Type v} {o : ObjectOps K V}

/-! ## Empty arrays -/

/-- The table has `n` nodes, all empty, and an insertion starts the id. An array of two nodes may
have lost its `_firstfree` to a removed key. -/
structure EmptyArray (n : Nat) (t : SQTable K V) : Prop where
  key_none : ∀ i, t.keyAt i = none
  next_none : ∀ i, t.nextAt i = none
  size_eq : t.size = n
  usednodes_eq : t.usednodes = 0
  classTypeId_eq : t.classTypeId = 0
  firstfree_le : t.firstfree ≤ t.numofnodesMinusOne
  firstfree_eq : t.firstfree = t.numofnodesMinusOne ∨ n ≤ 2

theorem EmptyArray.shape {n : Nat} {t : SQTable K V} (E : EmptyArray n t) :
    EmptyArray n t.shape :=
  ⟨E.key_none, E.next_none, E.size_eq, E.usednodes_eq, E.classTypeId_eq, E.firstfree_le,
    E.firstfree_eq⟩

theorem emptyArray_freshNodes {n : Nat} (hn : 0 < n) (t : SQTable K V) (h : t.classTypeId = 0) :
    EmptyArray n (freshNodes o n t) where
  key_none _ := rfl
  next_none _ := rfl
  size_eq := size_freshNodes hn t
  usednodes_eq := rfl
  classTypeId_eq := h
  firstfree_le := le_refl _
  firstfree_eq := .inl rfl

theorem numofnodesMinusOne_create_pow (b : Nat) :
    (create o ((2 ^ b : Nat) : Int)).numofnodesMinusOne = 2 ^ b - 1 := by
  have hgrow : growPow2 ((2 ^ b : Nat) : Int) ((2 ^ b : Nat) : Int).toNat (2 ^ 0) = 2 ^ b := by
    refine growPow2_eq (Nat.zero_le b) ?_
    rw [Int.toNat_natCast]
    exact Nat.lt_two_pow_self.le
  show growPow2 ((2 ^ b : Nat) : Int) ((2 ^ b : Nat) : Int).toNat (2 ^ 0) - 1 = 2 ^ b - 1
  rw [hgrow]

/-- Correcting `_firstfree` looks at the nodes only, and passes over nodes in use. -/
theorem correctFirstfree_congr {t t' : SQTable K V} (hk : t'.keyAt = t.keyAt)
    (hn : t'.nextAt = t.nextAt) (i : Nat) : correctFirstfree t' i = correctFirstfree t i := by
  have hfree : ∀ j, isFree t' j = isFree t j := by
    intro j
    have h1 : (t'.nodes j).key = (t.nodes j).key := congrFun hk j
    have h2 : (t'.nodes j).next = (t.nodes j).next := congrFun hn j
    rw [isFree, isFree, h1, h2]
  induction i with
  | zero => rw [correctFirstfree, correctFirstfree, hfree]
  | succ i ih => rw [correctFirstfree, correctFirstfree, hfree, ih]

section

variable [DecidableEq K] {o : ObjectOps K Unit}

/-- The first insertion into an empty array that starts the id does not depend on what the array
was used for before. -/
theorem newSlot_create {a : Nat} {s : SQTable K Unit} (E : EmptyArray (2 ^ (a + 1)) s) {k : K}
    {f : Nat}
    (hf : correctFirstfree (s.setKey (mainPosition o s k) (some k)) s.firstfree = some f)
    (hid : (finishSlot o (s.setKey (mainPosition o s k) (some k)) f k ()
      (mainPosition o s k)).classTypeId ≠ 0) :
    newSlot o 2 (create o ((2 ^ (a + 1) : Nat) : Int)) k () =
      some (finishSlot o (s.setKey (mainPosition o s k) (some k)) f k () (mainPosition o s k),
        true) := by
  have hpos : 0 < 2 ^ a := Nat.two_pow_pos a
  have hsize : s.numofnodesMinusOne = 2 ^ (a + 1) - 1 := by
    have := E.size_eq
    rw [size] at this
    omega
  have hn : (create o ((2 ^ (a + 1) : Nat) : Int)).numofnodesMinusOne = s.numofnodesMinusOne := by
    rw [numofnodesMinusOne_create_pow, hsize]
  have hmain : mainPosition o (create o ((2 ^ (a + 1) : Nat) : Int)) k = mainPosition o s k :=
    congrFun (mainPosition_congr hn) k
  have hnodes : s.nodes = (create o ((2 ^ (a + 1) : Nat) : Int)).nodes := by
    funext i
    show s.nodes i = emptyNode o
    rw [emptyNode, ← E.key_none i, ← E.next_none i]
    rfl
  have R := create_represents (o := o) ((2 ^ (a + 1) : Nat) : Int)
  have hg : getNode o (create o ((2 ^ (a + 1) : Nat) : Int)) k = some none := by
    apply getNode_of_absent R.wf
    intro i hi
    exact absurd hi (by simp [create, allocNodes, keyAt, emptyNode])
  have hp : placeKey o (create o ((2 ^ (a + 1) : Nat) : Int))
      (mainPosition o (create o ((2 ^ (a + 1) : Nat) : Int)) k) =
      some (create o ((2 ^ (a + 1) : Nat) : Int), mainPosition o s k) := by
    rw [hmain]
    rfl
  -- both corrections end at the highest free node
  have hfree : correctFirstfree
      ((create o ((2 ^ (a + 1) : Nat) : Int)).setKey (mainPosition o s k) (some k))
      (create o ((2 ^ (a + 1) : Nat) : Int)).firstfree = some f := by
    have hcongr : ∀ i, correctFirstfree
        ((create o ((2 ^ (a + 1) : Nat) : Int)).setKey (mainPosition o s k) (some k)) i =
        correctFirstfree (s.setKey (mainPosition o s k) (some k)) i := by
      apply correctFirstfree_congr
      · simp only [keyAt_setKey]
        rw [show (create o ((2 ^ (a + 1) : Nat) : Int)).keyAt = s.keyAt by
          funext i; rw [keyAt, keyAt, hnodes]]
      · simp only [nextAt_setKey]
        funext i
        rw [nextAt, nextAt, hnodes]
    rw [hcongr, show (create o ((2 ^ (a + 1) : Nat) : Int)).firstfree = s.numofnodesMinusOne from hn]
    rcases E.firstfree_eq with h | h
    · rw [← h, hf]
    · -- two nodes, the lower one free: the higher one is the new key's
      obtain ⟨hle, hfr, -⟩ := correctFirstfree_some hf
      have hn1 : s.numofnodesMinusOne = 1 := by omega
      by_cases hs : s.firstfree = 1
      · rw [hn1, ← hs, hf]
      · have hle' := E.firstfree_le
        have hs0 : s.firstfree = 0 := by omega
        obtain rfl : f = 0 := by omega
        have hm0 : mainPosition o s k ≠ 0 := by
          intro h0
          rw [h0, isFree_iff] at hfr
          simp at hfr
        have hm1 : mainPosition o s k = 1 := by
          have := mainPosition_le o s k
          omega
        have hnot : isFree (s.setKey (mainPosition o s k) (some k)) 1 = false := by
          rw [← Bool.not_eq_true, isFree_iff, hm1]
          simp
        rw [hn1, correctFirstfree, hnot]
        rw [hs0] at hf
        simpa using hf
  rcases newSlot_of_placeKey hg hp 1 () with ⟨f', hf', he⟩ | ⟨hf', -⟩
  · rw [hfree] at hf'
    obtain rfl := Option.some.inj hf'
    rw [he, Option.some.injEq, Prod.mk.injEq]
    refine ⟨?_, rfl⟩
    -- the two tables differ in `_firstfree` and in what was recorded, and neither is read
    obtain ⟨⟨addr, ha⟩, hsmall, -⟩ := finishSlot_ne_zero hid
    have hc : ((create o ((2 ^ (a + 1) : Nat) : Int)).setKey (mainPosition o s k)
        (some k)).numofnodesMinusOne < 1 <<< tblClassTypeMemberBits := by
      show (create o ((2 ^ (a + 1) : Nat) : Int)).numofnodesMinusOne < _
      rw [hn]
      exact hsmall
    rw [finishSlot_first () ha hc rfl rfl,
      finishSlot_first () ha hsmall E.classTypeId_eq E.usednodes_eq]
    simp only [setVal, setKey, setNode, hnodes, hn]
  · rw [hfree] at hf'
    exact absurd hf' (by simp)

end

section

variable [DecidableEq K]

theorem newSlot_empty {o : ObjectOps K Unit} {a : Nat} {s g : SQTable K Unit} {k : K} {b : Bool}
    (E : EmptyArray (2 ^ (a + 1)) s)
    (hf : ∃ f, correctFirstfree (s.setKey (mainPosition o s k) (some k)) s.firstfree = some f)
    (h : newSlot o 2 s k () = some (g, b)) (hid : g.classTypeId ≠ 0) :
    newSlot o 2 (create o ((2 ^ (a + 1) : Nat) : Int)) k () = some (g, b) := by
  obtain ⟨f, hf⟩ := hf
  have R : Represents o s ∅ :=
    represents_empty E.key_none E.next_none E.firstfree_le E.usednodes_eq ⟨a + 1, E.size_eq⟩
  have hg : getNode o s k = some none := by
    apply getNode_of_absent R.wf
    intro i hi
    rw [E.key_none i] at hi
    exact absurd hi (by simp)
  have hp : placeKey o s (mainPosition o s k) = some (s, mainPosition o s k) := by
    have hk : (s.nodes (mainPosition o s k)).key = none := E.key_none _
    simp [placeKey, hk]
  rcases newSlot_of_placeKey hg hp 1 () with ⟨f', hf', he⟩ | ⟨hf', -⟩
  · rw [hf] at hf'
    obtain rfl := Option.some.inj hf'
    rw [he, Option.some.injEq, Prod.mk.injEq] at h
    obtain ⟨rfl, rfl⟩ := h
    exact newSlot_create E hf hid
  · rw [hf] at hf'
    exact absurd hf' (by simp)

omit [DecidableEq K] in
/-- In a new array of two nodes or more the first key leaves a free node. -/
theorem EmptyArray.exists_firstfree {a : Nat} {s : SQTable K V} (E : EmptyArray (2 ^ (a + 1)) s)
    (hfirst : s.firstfree = s.numofnodesMinusOne) (h : Nat) (k : K) :
    ∃ f, correctFirstfree (s.setKey h (some k)) s.firstfree = some f := by
  have hfree : ∀ j, j ≠ h → isFree (s.setKey h (some k)) j = true := by
    intro j hj
    rw [isFree_iff, keyAt_setKey, nextAt_setKey, Function.update_of_ne hj]
    exact ⟨E.key_none j, E.next_none j⟩
  by_cases hh : s.firstfree = h
  · have hpos : 0 < 2 ^ a := Nat.two_pow_pos a
    have hsize := E.size_eq
    rw [size] at hsize
    exact correctFirstfree_of_free (Nat.zero_le _) (hfree 0 (by omega))
  · exact correctFirstfree_of_free (le_refl _) (hfree _ hh)

end

/-! ## The insertions of a rehash -/

/-- The keys of the first `j` nodes. -/
def keysBelow (t : SQTable K V) (j : Nat) : List K := (List.range j).filterMap t.keyAt

theorem keysBelow_succ_none {t : SQTable K V} {j : Nat} (h : t.keyAt j = none) :
    keysBelow t (j + 1) = keysBelow t j := by
  simp [keysBelow, List.range_succ, List.filterMap_append, h]

theorem keysBelow_succ_some {t : SQTable K V} {j : Nat} {k : K} (h : t.keyAt j = some k) :
    keysBelow t (j + 1) = keysBelow t j ++ [k] := by
  simp [keysBelow, List.range_succ, List.filterMap_append, h]

theorem mem_keysBelow {t : SQTable K V} {j : Nat} {k : K} :
    k ∈ keysBelow t j ↔ ∃ i < j, t.keyAt i = some k := by
  simp [keysBelow]

theorem Placed.extends {t t' : SQTable K V} {k : K} {mp f : Nat} {v : V}
    (P : Placed o t k t' mp) (h : Extends o t' (finishSlot o t' f k v mp) [(mp, k)]) :
    Extends o t (finishSlot o t' f k v mp) [(mp, k)] where
  recorded := by rw [h.recorded, P.recorded_eq]
  classTypeId := by rw [h.classTypeId, P.classTypeId_eq]
  strings := h.strings

section

variable [DecidableEq K]

/-- The shapes with an id: `us` are the keys inserted into an empty array of `2 ^ (a + 1)` nodes. -/
inductive Grown (o : ObjectOps K Unit) (a : Nat) : List K → SQTable K Unit → Prop
  | nil : Grown o a [] (create o ((2 ^ (a + 1) : Nat) : Int))
  | next {us : List K} {k : K} {g g' : SQTable K Unit} {b : Bool} :
      Grown o a us g → k ∉ us → newSlot o 2 g k () = some (g', b) → g'.classTypeId ≠ 0 →
      Grown o a (us ++ [k]) g'

theorem Grown.first {o : ObjectOps K Unit} {a : Nat} {k : K} {g : SQTable K Unit} {b : Bool}
    (h : newSlot o 2 (create o ((2 ^ (a + 1) : Nat) : Int)) k () = some (g, b))
    (hid : g.classTypeId ≠ 0) : Grown o a [k] g :=
  .next .nil (List.not_mem_nil) h hid

variable {old fresh : SQTable K V} {m : Finmap fun _ : K => V}

/-- The nodes hold each key once, and their keys are those of the map. -/
theorem Stores.keysBelow_size (S : Stores old m) :
    (keysBelow old old.size).Nodup ∧ ∀ k, k ∈ keysBelow old old.size ↔ k ∈ m := by
  constructor
  · refine List.Nodup.filterMap ?_ List.nodup_range
    intro i i' k hi hi'
    exact S.key_inj hi hi'
  · intro k
    rw [mem_keysBelow, S.mem_iff]
    constructor
    · rintro ⟨i, -, hi⟩
      exact ⟨i, hi⟩
    · rintro ⟨i, hi⟩
      exact ⟨i, Nat.lt_succ_of_le (S.key_le hi), hi⟩

/-- One reinsertion: the key of node `j` is placed in the table filled from the nodes below. -/
theorem foldlM_reinsertNode_some (S : Stores old m) (R : Represents o fresh ∅) (D : Dense fresh)
    (hsize : m.keys.card < fresh.size) (depth : Nat) {j : Nat} {k : K}
    (hk : old.keyAt j = some k) :
    ∃ tj mj t' mp f,
      (List.range j).foldlM (reinsertNode (newSlot o (depth + 1)) old) fresh = some tj ∧
      Represents o tj mj ∧ k ∉ mj ∧ (∀ x, x ∈ mj ↔ x ∈ keysBelow old j) ∧
      Placed o tj k t' mp ∧
      newSlot o (depth + 1) tj k (old.valAt j) =
        some (finishSlot o t' f k (old.valAt j) mp, true) ∧
      (List.range (j + 1)).foldlM (reinsertNode (newSlot o (depth + 1)) old) fresh =
        some (finishSlot o t' f k (old.valAt j) mp) := by
  obtain ⟨tj, mj, he, Rj, Dj, hn, hmj⟩ := foldlM_reinsertNode S R D hsize depth j
  obtain ⟨hnew, hle⟩ := S.card_below hk hmj
  have hsize' : mj.keys.card + 1 < tj.size := by
    rw [size, hn]
    rw [size] at hsize
    omega
  obtain ⟨t', mp, f, P, hf, hs⟩ := newSlot_dense_cases Rj Dj hnew (old.valAt j) hsize' depth
  refine ⟨tj, mj, t', mp, f, he, Rj, hnew, fun x => ?_, P, hs, ?_⟩
  · rw [Finmap.mem_iff, mem_keysBelow]
    constructor
    · rintro ⟨v, hv⟩
      obtain ⟨i, hi, hix, -⟩ := (hmj x v).1 hv
      exact ⟨i, hi, hix⟩
    · rintro ⟨i, hi, hix⟩
      exact ⟨old.valAt i, (hmj x _).2 ⟨i, hi, hix, rfl⟩⟩
  · have hk' : (old.nodes j).key = some k := hk
    have hs' : newSlot o (depth + 1) tj k (old.nodes j).val =
        some (finishSlot o t' f k (old.valAt j) mp, true) := hs
    have hstep : reinsertNode (newSlot o (depth + 1)) old tj j =
        some (finishSlot o t' f k (old.valAt j) mp) := by
      simp [reinsertNode, hk', hs']
    rw [List.range_succ, List.foldlM_append, he]
    simp [hstep]

omit [DecidableEq K] in
theorem foldlM_reinsertNode_none {ns : SQTable K V → K → V → Option (SQTable K V × Bool)} {j : Nat}
    (hk : old.keyAt j = none) :
    (List.range (j + 1)).foldlM (reinsertNode ns old) fresh =
      (List.range j).foldlM (reinsertNode ns old) fresh := by
  have hk' : (old.nodes j).key = none := hk
  have hstep : ∀ t, reinsertNode ns old t j = some t := fun t => by simp [reinsertNode, hk']
  rw [List.range_succ, List.foldlM_append]
  simp [hstep]

omit [DecidableEq K] in
/-- Nothing is reinserted from nodes without keys. -/
theorem foldlM_reinsertNode_nil {ns : SQTable K V → K → V → Option (SQTable K V × Bool)} {j : Nat}
    (h : keysBelow old j = []) :
    (List.range j).foldlM (reinsertNode ns old) fresh = some fresh := by
  induction j with
  | zero => rfl
  | succ j ih =>
    cases hk : old.keyAt j with
    | none =>
      rw [keysBelow_succ_none hk] at h
      rw [foldlM_reinsertNode_none hk]
      exact ih h
    | some k =>
      rw [keysBelow_succ_some hk] at h
      exact absurd h (by simp)

/-- A rehash of a table with an id hashes its keys in, in the order of the nodes. -/
theorem foldlM_extends (S : Stores old m) (R : Represents o fresh ∅) (D : Dense fresh)
    (hsize : m.keys.card < fresh.size) (depth : Nat) (hid : fresh.classTypeId ≠ 0) (j : Nat)
    {t' : SQTable K V}
    (h : (List.range j).foldlM (reinsertNode (newSlot o (depth + 1)) old) fresh = some t')
    (hid' : t'.classTypeId ≠ 0) :
    ∃ l, l.map Prod.snd = keysBelow old j ∧ Extends o fresh t' l ∧
      (keysBelow old j ≠ [] → t'.numofnodesMinusOne < 1 <<< tblClassTypeMemberBits) := by
  induction j generalizing t' with
  | zero =>
    obtain rfl : fresh = t' := by simpa using h
    exact ⟨[], rfl, ⟨by simp, by simp [recordHash], by simp⟩, fun hne => absurd rfl hne⟩
  | succ j ih =>
    cases hk : old.keyAt j with
    | none =>
      rw [foldlM_reinsertNode_none hk] at h
      rw [keysBelow_succ_none hk]
      exact ih h hid'
    | some k =>
      obtain ⟨tj, mj, t1, mp, f, hj, Rj, -, hmj, P, -, hs⟩ :=
        foldlM_reinsertNode_some S R D hsize depth hk
      rw [hs] at h
      obtain rfl := Option.some.inj h
      -- an id that is there at the end was there before the last key went in
      obtain ⟨-, hsmall, ⟨h0, hext⟩ | ⟨h0, hu, -⟩⟩ := finishSlot_ne_zero hid'
      · rw [P.classTypeId_eq] at h0
        obtain ⟨l, hl, hl', -⟩ := ih hj h0
        refine ⟨l ++ [(mp, k)], ?_, hl'.trans (P.extends hext), fun _ => by
          rw [numofnodesMinusOne_finishSlot]; exact hsmall⟩
        rw [keysBelow_succ_some hk, List.map_append, hl]
        rfl
      · -- the id was lost before this insertion, so it is not the first one
        have hnil : keysBelow old j = [] := by
          rw [P.usednodes_eq, Rj.usednodes_eq, Finset.card_eq_zero] at hu
          rw [List.eq_nil_iff_forall_not_mem]
          intro x hx
          have hmem := Finmap.mem_keys.2 ((hmj x).2 hx)
          rw [hu] at hmem
          exact absurd hmem (Finset.notMem_empty x)
        rw [foldlM_reinsertNode_nil hnil] at hj
        obtain rfl := Option.some.inj hj
        rw [P.classTypeId_eq] at h0
        exact absurd h0 hid

/-- A rehash of a table without an id gives a shape with an id only when all its keys are strings,
inserted in the order of the nodes. -/
theorem foldlM_grown (S : Stores old m) {a : Nat} (R : Represents o fresh ∅) (D : Dense fresh)
    (E : EmptyArray (2 ^ (a + 1)) fresh) (hfirst : fresh.firstfree = fresh.numofnodesMinusOne)
    (hsize : m.keys.card < fresh.size) (depth : Nat) (j : Nat) {t' : SQTable K V}
    (h : (List.range j).foldlM (reinsertNode (newSlot o (depth + 1)) old) fresh = some t')
    (hid' : t'.classTypeId ≠ 0) : Grown o.shape a (keysBelow old j) t'.shape := by
  induction j generalizing t' with
  | zero =>
    obtain rfl : fresh = t' := by simpa using h
    exact absurd E.classTypeId_eq hid'
  | succ j ih =>
    cases hk : old.keyAt j with
    | none =>
      rw [foldlM_reinsertNode_none hk] at h
      rw [keysBelow_succ_none hk]
      exact ih h hid'
    | some k =>
      obtain ⟨tj, mj, t1, mp, f, hj, Rj, hnew, hmj, P, hns, hs⟩ :=
        foldlM_reinsertNode_some S R D hsize depth hk
      rw [hs] at h
      obtain rfl := Option.some.inj h
      have hns2 := newSlot_shape_two Rj (newSlot_succ hns)
      rw [keysBelow_succ_some hk]
      obtain ⟨-, -, ⟨h0, -⟩ | ⟨-, hu, -⟩⟩ := finishSlot_ne_zero hid'
      · rw [P.classTypeId_eq] at h0
        exact .next (ih hj h0) (fun hx => hnew ((hmj k).2 hx)) hns2 hid'
      · have hnil : keysBelow old j = [] := by
          rw [P.usednodes_eq, Rj.usednodes_eq, Finset.card_eq_zero] at hu
          rw [List.eq_nil_iff_forall_not_mem]
          intro x hx
          have hmem := Finmap.mem_keys.2 ((hmj x).2 hx)
          rw [hu] at hmem
          exact absurd hmem (Finset.notMem_empty x)
        rw [foldlM_reinsertNode_nil hnil] at hj
        obtain rfl := Option.some.inj hj
        rw [hnil]
        exact .first (newSlot_empty E.shape (E.shape.exists_firstfree hfirst _ k) hns2 hid') hid'

end

end Quirrel.Table
