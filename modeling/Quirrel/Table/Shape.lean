import Quirrel.Table.FiniteMap

/-!
# The shape of a table

The shape of a table is the table without its values. No operation reads a value, so `NewSlot` works
on shapes (`newSlot_shape`), and its result does not depend on the depth of calls that the model
allows (`newSlot_depth`). `Extends` says which insertions were hashed into `_classTypeId` between
two tables.
-/

set_option autoImplicit false

namespace Quirrel.Table

open Quirrel.Lib SQTable

universe u v

variable {K : Type u} {V : Type v}

/-! ## Erasing the values -/

/-- The operations where values do not matter. -/
def ObjectOps.shape (o : ObjectOps K V) : ObjectOps K Unit where
  hashObj := o.hashObj
  stringAddr := o.stringAddr
  null := ()
  realval := id

/-- The node without its value. -/
def HashNode.shape (n : HashNode K V) : HashNode K Unit := ⟨(), n.key, n.next⟩

/-- The table without its values. -/
def SQTable.shape (t : SQTable K V) : SQTable K Unit where
  firstfree := t.firstfree
  nodes i := (t.nodes i).shape
  numofnodesMinusOne := t.numofnodesMinusOne
  usednodes := t.usednodes
  classTypeId := t.classTypeId
  recorded := t.recorded

@[simp] theorem keyAt_shape (t : SQTable K V) : t.shape.keyAt = t.keyAt := rfl

@[simp] theorem nextAt_shape (t : SQTable K V) : t.shape.nextAt = t.nextAt := rfl

theorem shape_setNode (t : SQTable K V) (i : Nat) (n : HashNode K V) :
    (t.setNode i n).shape = t.shape.setNode i n.shape := by
  simp only [setNode, SQTable.shape]
  congr 1
  funext j
  by_cases h : j = i
  · simp [h]
  · simp [h]

theorem shape_setKey (t : SQTable K V) (i : Nat) (k : Option K) :
    (t.setKey i k).shape = t.shape.setKey i k := by
  rw [setKey, setKey, shape_setNode]
  rfl

theorem shape_setNext (t : SQTable K V) (i : Nat) (n : Option Nat) :
    (t.setNext i n).shape = t.shape.setNext i n := by
  rw [setNext, setNext, shape_setNode]
  rfl

/-- A write to a value changes no shape. -/
theorem shape_setVal (t : SQTable K V) (i : Nat) (v : V) : (t.setVal i v).shape = t.shape := by
  rw [setVal, shape_setNode]
  simp only [setNode, SQTable.shape, HashNode.shape]
  congr 1
  funext j
  by_cases h : j = i
  · simp [h]
  · simp [h]

/-- A shape has no values to set. -/
theorem setVal_unit (t : SQTable K Unit) (i : Nat) (u : Unit) : t.setVal i u = t := by
  simp only [setVal, setNode]
  rw [show (⟨u, (t.nodes i).key, (t.nodes i).next⟩ : HashNode K Unit) = t.nodes i from rfl,
    Function.update_eq_self]

variable {o : ObjectOps K V}

/-- Where a key goes does not depend on values. -/
theorem shape_placeKey (t : SQTable K V) (h : Nat) :
    placeKey o.shape t.shape h = (placeKey o t h).map fun p => (p.1.shape, p.2) := by
  have hprev : ∀ mp fuel i, findPrevious t.shape mp fuel i = findPrevious t mp fuel i := by
    intro mp fuel
    induction fuel with
    | zero => intro i; rfl
    | succ fuel ih =>
      intro i
      simp only [findPrevious, SQTable.shape, HashNode.shape]
      cases (t.nodes i).next with
      | none => rfl
      | some j =>
        by_cases hj : j = mp
        · simp [hj]
        · simp only [hj, if_false]
          exact ih j
  have hkey : (t.shape.nodes h).key = (t.nodes h).key := rfl
  unfold placeKey
  rw [hkey]
  cases (t.nodes h).key with
  | none => rfl
  | some c =>
    have hmain : mainPosition o.shape t.shape c = mainPosition o t c := rfl
    have hfree : t.shape.firstfree = t.firstfree := rfl
    have hsize : t.shape.size = t.size := rfl
    simp only [hmain, hfree, hsize, hprev]
    by_cases hc : h > t.firstfree ∧ mainPosition o t c ≠ h
    · simp only [if_pos hc]
      cases findPrevious t h t.size (mainPosition o t c) with
      | none => rfl
      | some p =>
        simp only [Option.map_some, Option.some.injEq, Prod.mk.injEq, and_true]
        rw [shape_setNode, shape_setNode, ← shape_setNext]
        rfl
    · simp only [if_neg hc]
      simp only [Option.map_some, Option.some.injEq, Prod.mk.injEq, and_true]
      rw [show (t.shape.nodes h).next = (t.nodes h).next from rfl, shape_setNext, shape_setNext]

/-- Nor does the last free node. -/
theorem shape_correctFirstfree (t : SQTable K V) (i : Nat) :
    correctFirstfree t.shape i = correctFirstfree t i := by
  induction i with
  | zero => rfl
  | succ i ih =>
    rw [correctFirstfree, correctFirstfree, ih]
    rfl

/-- Nor does the class type id. -/
theorem shape_updateClassTypeId (t : SQTable K V) (k : K) (mp : Nat) :
    updateClassTypeId o.shape t.shape k mp = (updateClassTypeId o t k mp).shape := by
  unfold updateClassTypeId
  have haddr : o.shape.stringAddr k = o.stringAddr k := rfl
  rw [haddr]
  cases o.stringAddr k with
  | none => rfl
  | some addr =>
    simp only
    show (if t.numofnodesMinusOne < 1 <<< tblClassTypeMemberBits then
      (if t.classTypeId ≠ 0 then _ else if t.usednodes = 0 then _ else _) else _) = _
    split_ifs <;> rfl

theorem shape_freshNodes (n : Nat) (t : SQTable K V) :
    freshNodes o.shape n t.shape = (freshNodes o n t).shape := rfl

/-- A rehash works on shapes when its insertions do. -/
theorem shape_rehash {ns : SQTable K V → K → V → Option (SQTable K V × Bool)}
    {ns' : SQTable K Unit → K → Unit → Option (SQTable K Unit × Bool)}
    (hns : ∀ t k v u, ns' t.shape k u = (ns t k v).map fun p => (p.1.shape, p.2))
    (force : Bool) (t : SQTable K V) :
    rehash o.shape ns' force t.shape = (rehash o ns force t).map SQTable.shape := by
  have hstep : ∀ s i, reinsertNode ns' t.shape s.shape i =
      (reinsertNode ns t s i).map SQTable.shape := by
    intro s i
    have hkey : (t.shape.nodes i).key = (t.nodes i).key := rfl
    unfold reinsertNode
    rw [hkey]
    cases (t.nodes i).key with
    | none => rfl
    | some k =>
      simp only [hns s k (t.nodes i).val, Option.map_map]
      rfl
  have hfold : ∀ (l : List Nat) s, l.foldlM (reinsertNode ns' t.shape) s.shape =
      (l.foldlM (reinsertNode ns t) s).map SQTable.shape := by
    intro l
    induction l with
    | nil => intro s; rfl
    | cons i l ih =>
      intro s
      rw [List.foldlM_cons, List.foldlM_cons, hstep]
      cases reinsertNode ns t s i with
      | none => rfl
      | some s' => exact ih s'
  have hsize : rehashSize force t.shape = rehashSize force t := rfl
  cases hr : rehashSize force t with
  | none =>
    rw [rehash_of_none hr, rehash_of_none (hsize.trans hr)]
    rfl
  | some n =>
    rw [rehash_of_some hr, rehash_of_some (hsize.trans hr), shape_freshNodes]
    exact hfold (List.range t.size) _

section

variable [DecidableEq K]

/-- Nor does a look-up. -/
theorem shape_getNode (t : SQTable K V) (k : K) : getNode o.shape t.shape k = getNode o t k := by
  have hloop : ∀ fuel i, getLoop t.shape k fuel i = getLoop t k fuel i := by
    intro fuel
    induction fuel with
    | zero => intro i; rfl
    | succ fuel ih =>
      intro i
      have hkey : (t.shape.nodes i).key = (t.nodes i).key := rfl
      have hnext : (t.shape.nodes i).next = (t.nodes i).next := rfl
      rw [getLoop, getLoop, hkey, hnext]
      simp only [ih]
  exact hloop t.size (mainPosition o t k)

/-- `NewSlot` works on shapes. -/
theorem newSlot_shape (depth : Nat) (t : SQTable K V) (k : K) (v : V) (u : Unit) :
    newSlot o.shape depth t.shape k u =
      (newSlot o depth t k v).map fun p => (p.1.shape, p.2) := by
  induction depth generalizing t k v u with
  | zero => rfl
  | succ depth ih =>
    rw [newSlot, newSlot, shape_getNode]
    cases getNode o t k with
    | none => rfl
    | some n =>
      cases n with
      | some i =>
        simp only [Option.map_some, Option.some.injEq, Prod.mk.injEq, and_true]
        rw [setVal_unit, shape_setVal]
      | none =>
        simp only
        rw [show mainPosition o.shape t.shape k = mainPosition o t k from rfl, shape_placeKey]
        cases placeKey o t (mainPosition o t k) with
        | none => rfl
        | some p =>
          obtain ⟨t1, mp⟩ := p
          simp only [Option.map_some]
          rw [← shape_setKey, shape_correctFirstfree]
          have hfree : (t1.setKey mp (some k)).shape.firstfree = (t1.setKey mp (some k)).firstfree := rfl
          rw [hfree]
          cases correctFirstfree (t1.setKey mp (some k)) (t1.setKey mp (some k)).firstfree with
          | some f =>
            simp only [Option.map_some, Option.some.injEq, Prod.mk.injEq, and_true]
            have hval : (SQTable.setVal { (t1.setKey mp (some k)).shape with firstfree := f } mp u) =
                ({ t1.setKey mp (some k) with firstfree := f }.setVal mp v).shape := by
              rw [shape_setVal]
              exact setVal_unit _ mp u
            rw [hval, shape_updateClassTypeId]
            rfl
          | none =>
            simp only
            -- a full table is rehashed before the key goes in
            have hre := shape_rehash (o := o) (fun t k v u => ih t k v u) true
              { t1.setKey mp (some k) with firstfree := 0 }
            rw [show ({ (t1.setKey mp (some k)).shape with firstfree := 0 } : SQTable K Unit) =
              ({ t1.setKey mp (some k) with firstfree := 0 } : SQTable K V).shape from rfl, hre]
            cases rehash o (newSlot o depth) true { t1.setKey mp (some k) with firstfree := 0 } with
            | none => rfl
            | some t3 => exact ih t3 k v u

/-! ## The depth of calls -/

omit [DecidableEq K] in
/-- A rehash that succeeds succeeds with insertions that succeed more often. -/
theorem rehash_mono {ns ns' : SQTable K V → K → V → Option (SQTable K V × Bool)}
    (hns : ∀ t k v r, ns t k v = some r → ns' t k v = some r) {force : Bool} {t t' : SQTable K V}
    (h : rehash o ns force t = some t') : rehash o ns' force t = some t' := by
  have hfold : ∀ (l : List Nat) s s', l.foldlM (reinsertNode ns t) s = some s' →
      l.foldlM (reinsertNode ns' t) s = some s' := by
    intro l
    induction l with
    | nil => intro s s' hs; exact hs
    | cons i l ih =>
      intro s s' hs
      rw [List.foldlM_cons] at hs ⊢
      obtain ⟨s1, h1, h2⟩ := Option.bind_eq_some_iff.1 hs
      have h1' : reinsertNode ns' t s i = some s1 := by
        unfold reinsertNode at h1 ⊢
        cases hk : (t.nodes i).key with
        | none => simpa [hk] using h1
        | some k =>
          simp only [hk, Option.map_eq_some_iff] at h1 ⊢
          obtain ⟨r, hr, hrs⟩ := h1
          exact ⟨r, hns _ _ _ _ hr, hrs⟩
      rw [h1']
      exact ih s1 s' h2
  cases hr : rehashSize force t with
  | none => rwa [rehash_of_none hr] at h ⊢
  | some n =>
    rw [rehash_of_some hr] at h ⊢
    exact hfold _ _ _ h

/-- More depth does not change the result. -/
theorem newSlot_succ {depth : Nat} {t : SQTable K V} {k : K} {v : V} {r : SQTable K V × Bool}
    (h : newSlot o depth t k v = some r) : newSlot o (depth + 1) t k v = some r := by
  induction depth generalizing t k v r with
  | zero => exact absurd h (by simp [newSlot])
  | succ depth ih =>
    rw [newSlot] at h ⊢
    cases hg : getNode o t k with
    | none => simp [hg] at h
    | some n =>
      cases n with
      | some i => simpa [hg] using h
      | none =>
        cases hp : placeKey o t (mainPosition o t k) with
        | none => simp [hg, hp] at h
        | some p =>
          cases hf : correctFirstfree (p.1.setKey p.2 (some k))
              (p.1.setKey p.2 (some k)).firstfree with
          | some f => simpa [hg, hp, hf] using h
          | none =>
            simp only [hg, hp, hf] at h ⊢
            cases hr : rehash o (newSlot o depth) true
                { p.1.setKey p.2 (some k) with firstfree := 0 } with
            | none => simp [hr] at h
            | some t3 =>
              have hr' := rehash_mono (fun t k v r hx => ih hx) hr
              simp only [hr] at h
              simp only [hr']
              exact ih h

/-- Any larger depth gives the same result. -/
theorem newSlot_le {d d' : Nat} (hle : d ≤ d') {t : SQTable K V} {k : K} {v : V}
    {r : SQTable K V × Bool} (h : newSlot o d t k v = some r) : newSlot o d' t k v = some r := by
  induction hle with
  | refl => exact h
  | step _ ih => exact newSlot_succ ih

/-- Two levels of calls are all that `NewSlot` uses. -/
theorem newSlot_depth {t : SQTable K V} {m : Finmap fun _ : K => V} (R : Represents o t m)
    (depth : Nat) (k : K) (v : V) : newSlot o (depth + 2) t k v = newSlot o 2 t k v := by
  obtain ⟨t', b, he, -⟩ := newSlot_represents R 0 k v
  rw [show newSlot o 2 t k v = some (t', b) from he]
  exact newSlot_le (by omega) he

/-- `NewSlot` on the shape of a table, at two levels of calls. -/
theorem newSlot_shape_two {t : SQTable K V} {m : Finmap fun _ : K => V} (R : Represents o t m)
    {depth : Nat} {k : K} {v : V} {t' : SQTable K V} {b : Bool}
    (h : newSlot o (depth + 2) t k v = some (t', b)) :
    newSlot o.shape 2 t.shape k () = some (t'.shape, b) := by
  rw [newSlot_depth R] at h
  rw [newSlot_shape 2 t k v (), h]
  rfl

/-! ## The hash of an insertion sequence -/

/-- The id after the insertions `l`, started from `h`. -/
def recordHash (o : ObjectOps K V) (h : UInt64) (l : List (Nat × K)) : UInt64 :=
  l.foldl (fun h p => classTypeHashStep h p.1 ((o.stringAddr p.2).getD 0)) h

/-- The insertions `l` were hashed into the id of `t`, which gave the id of `t'`. -/
structure Extends (o : ObjectOps K V) (t t' : SQTable K V) (l : List (Nat × K)) : Prop where
  recorded : t'.recorded = t.recorded ++ l
  classTypeId : t'.classTypeId = recordHash o t.classTypeId l
  strings : ∀ p ∈ l, ∃ a, o.stringAddr p.2 = some a

omit [DecidableEq K] in
/-- One extension after the other. -/
theorem Extends.trans {t1 t2 t3 : SQTable K V} {l l' : List (Nat × K)} (h : Extends o t1 t2 l)
    (h' : Extends o t2 t3 l') : Extends o t1 t3 (l ++ l') where
  recorded := by rw [h'.recorded, h.recorded, List.append_assoc]
  classTypeId := by rw [h'.classTypeId, h.classTypeId, recordHash, recordHash, recordHash,
    List.foldl_append]
  strings p hp := (List.mem_append.1 hp).elim (h.strings p) (h'.strings p)

omit [DecidableEq K] in
/-- The first string key of an empty table starts the id. -/
theorem updateClassTypeId_first {t : SQTable K V} (mp : Nat) {a : Nat} {k : K}
    (ha : o.stringAddr k = some a)
    (hsmall : t.numofnodesMinusOne < 1 <<< tblClassTypeMemberBits) (h0 : t.classTypeId = 0)
    (hu : t.usednodes = 0) :
    updateClassTypeId o t k mp =
      { t with
        classTypeId := recordHash o classTypeHashInit [(mp, k)]
        recorded := [(mp, k)] } := by
  simp only [updateClassTypeId, ha, if_pos hsmall, if_pos hu, h0, ne_eq, not_true_eq_false,
    if_false, recordHash, List.foldl_cons, List.foldl_nil, Option.getD_some]

omit [DecidableEq K] in
/-- An insertion that leaves a non-zero id hashed its key in, on top of the old id if there was one
and as the first key of the table otherwise. -/
theorem updateClassTypeId_ne_zero {t : SQTable K V} {mp : Nat} {k : K}
    (h : (updateClassTypeId o t k mp).classTypeId ≠ 0) :
    (∃ a, o.stringAddr k = some a) ∧ t.numofnodesMinusOne < 1 <<< tblClassTypeMemberBits ∧
      ((t.classTypeId ≠ 0 ∧ Extends o t (updateClassTypeId o t k mp) [(mp, k)]) ∨
        (t.classTypeId = 0 ∧ t.usednodes = 0 ∧
          (updateClassTypeId o t k mp).recorded = [(mp, k)] ∧
          (updateClassTypeId o t k mp).classTypeId =
            recordHash o classTypeHashInit [(mp, k)])) := by
  cases ha : o.stringAddr k with
  | none => exact absurd h (by simp [updateClassTypeId, ha])
  | some a =>
    have hone : ∀ p ∈ [(mp, k)], ∃ a, o.stringAddr p.2 = some a := by
      intro p hp
      rw [List.mem_singleton.1 hp]
      exact ⟨a, ha⟩
    by_cases hsmall : t.numofnodesMinusOne < 1 <<< tblClassTypeMemberBits
    · refine ⟨⟨a, rfl⟩, hsmall, ?_⟩
      by_cases h0 : t.classTypeId = 0
      · by_cases h1 : t.usednodes = 0
        · have hfirst := updateClassTypeId_first mp ha hsmall h0 h1
          exact .inr ⟨h0, h1, by rw [hfirst], by rw [hfirst]⟩
        · simp only [updateClassTypeId, ha, if_pos hsmall, if_neg h1, h0, ne_eq, not_true_eq_false,
            if_false] at h
      · refine .inl ⟨h0, ?_, ?_, hone⟩
        · simp only [updateClassTypeId, ha, if_pos hsmall, if_pos h0]
        · simp only [updateClassTypeId, ha, if_pos hsmall, if_pos h0, recordHash, List.foldl_cons,
            List.foldl_nil, Option.getD_some]
    · simp only [updateClassTypeId, ha, if_neg hsmall, ne_eq, not_true_eq_false] at h

omit [DecidableEq K] in
/-- Only string keys keep a class type id. -/
theorem finishSlot_ne_zero {t : SQTable K V} {f mp : Nat} {k : K} {v : V}
    (h : (finishSlot o t f k v mp).classTypeId ≠ 0) :
    (∃ a, o.stringAddr k = some a) ∧ t.numofnodesMinusOne < 1 <<< tblClassTypeMemberBits ∧
      ((t.classTypeId ≠ 0 ∧ Extends o t (finishSlot o t f k v mp) [(mp, k)]) ∨
        (t.classTypeId = 0 ∧ t.usednodes = 0 ∧ (finishSlot o t f k v mp).recorded = [(mp, k)] ∧
          (finishSlot o t f k v mp).classTypeId =
            recordHash o classTypeHashInit [(mp, k)])) := by
  obtain ⟨hstr, hsmall, ⟨h0, hext⟩ | hfirst⟩ := updateClassTypeId_ne_zero h
  · exact ⟨hstr, hsmall, .inl ⟨h0, hext.recorded, hext.classTypeId, hext.strings⟩⟩
  · exact ⟨hstr, hsmall, .inr hfirst⟩

omit [DecidableEq K] in
theorem finishSlot_first {t : SQTable K V} {f mp a : Nat} {k : K} (v : V)
    (ha : o.stringAddr k = some a)
    (hsmall : t.numofnodesMinusOne < 1 <<< tblClassTypeMemberBits) (h0 : t.classTypeId = 0)
    (hu : t.usednodes = 0) :
    finishSlot o t f k v mp =
      ⟨f, (t.setVal mp v).nodes, t.numofnodesMinusOne, 1,
        recordHash o classTypeHashInit [(mp, k)], [(mp, k)]⟩ := by
  have hfirst := updateClassTypeId_first (t := { t with firstfree := f }.setVal mp v) mp
    ha hsmall h0 hu
  simp only [finishSlot, hfirst]
  show _ = (⟨f, _, _, 0 + 1, _, _⟩ : SQTable K V)
  rw [← hu]
  rfl

end

end Quirrel.Table
