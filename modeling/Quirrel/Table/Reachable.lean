import Quirrel.Table.Grown

/-!
# The ids of reachable tables

`Tracked` is what every operation keeps: a table with a non-zero `_classTypeId` has a `Grown` shape,
and a table without keys has an empty node array. `runOps_tracked` carries it over all runs.
-/

set_option autoImplicit false

namespace Quirrel.Table

open Quirrel.Lib SQTable

universe u v

variable {K : Type u} {V : Type v} {o : ObjectOps K V} [DecidableEq K]

/-! ## Grown shapes as finite maps -/

omit [DecidableEq K] in
theorem dense_create (n : Int) : Dense (create o n) where
  next_none _ := rfl
  full h1 h2 := absurd h1 (Nat.not_lt.2 h2)

omit [DecidableEq K] in
theorem size_create_pow (b : Nat) : (create o ((2 ^ b : Nat) : Int)).size = 2 ^ b := by
  have hpos : 0 < 2 ^ b := Nat.two_pow_pos b
  rw [size, numofnodesMinusOne_create_pow]
  omega

/-- A grown shape has no dead nodes and holds exactly the inserted keys. -/
theorem Grown.represents {o : ObjectOps K Unit} {a : Nat} {us : List K} {g : SQTable K Unit}
    (h : Grown o a us g) :
    ∃ m, Represents o g m ∧ Dense g ∧ (∀ k, k ∈ m ↔ k ∈ us) ∧ m.keys.card = us.length := by
  induction h with
  | nil =>
    exact ⟨∅, create_represents _, dense_create _,
      fun k => iff_of_false Finmap.notMem_empty List.not_mem_nil, rfl⟩
  | @next us k g g' b _ hk hns _ ih =>
    obtain ⟨m, R, D, hm, hc⟩ := ih
    have hnew : k ∉ m := fun h => hk ((hm k).1 h)
    obtain ⟨R', D'⟩ := newSlot_represents_dense R D hnew hns
    refine ⟨_, R', D', fun x => ?_, by
      rw [card_keys_insert hnew, hc, List.length_append, List.length_singleton]⟩
    rw [Finmap.mem_insert, hm, List.mem_append, List.mem_singleton]
    exact or_comm

theorem Grown.nodup {o : ObjectOps K Unit} {a : Nat} {us : List K} {g : SQTable K Unit}
    (h : Grown o a us g) : us.Nodup := by
  induction h with
  | nil => exact List.nodup_nil
  | next _ hk _ _ ih =>
    rw [List.nodup_append]
    refine ⟨ih, List.nodup_singleton _, ?_⟩
    intro x hx y hy
    rw [List.mem_singleton.1 hy]
    exact fun hxk => hk (hxk ▸ hx)

theorem Grown.mem_iff {o : ObjectOps K Unit} {a : Nat} {us : List K} {g : SQTable K Unit}
    (h : Grown o a us g) {k : K} : k ∈ us ↔ ∃ i, g.keyAt i = some k := by
  obtain ⟨m, R, -, hm, -⟩ := h.represents
  rw [← hm, R.stores.mem_iff]

/-! ## What every operation keeps -/

/-- A table with an id has a grown shape; a table without keys has an empty node array. -/
structure Tracked (o : ObjectOps K V) (t : SQTable K V) : Prop where
  grown : t.classTypeId ≠ 0 → ∃ a us, Grown o.shape a us t.shape
  empty : t.usednodes = 0 → EmptyArray t.size t

variable {t : SQTable K V} {m : Finmap fun _ : K => V}

/-- Being tracked is a property of the shape. -/
theorem Tracked.of_shape_eq {t' : SQTable K V} (T : Tracked o t) (h : t'.shape = t.shape) :
    Tracked o t' where
  grown hid := by
    have heq : t'.shape.classTypeId = t.shape.classTypeId := by rw [h]
    have hid' : t.classTypeId ≠ 0 := fun h0 => hid (heq.trans h0)
    rw [h]
    exact T.grown hid'
  empty hu := by
    have hused : t'.shape.usednodes = t.shape.usednodes := by rw [h]
    have hsize : t'.shape.size = t.shape.size := by rw [h]
    have E := (T.empty (hused.symm.trans hu)).shape
    rw [← h, ← show t'.size = t.size from hsize] at E
    exact ⟨E.key_none, E.next_none, E.size_eq, E.usednodes_eq, E.classTypeId_eq, E.firstfree_le,
      E.firstfree_eq⟩

theorem Tracked.of_empty {n : Nat} (E : EmptyArray n t) : Tracked o t where
  grown hid := absurd E.classTypeId_eq hid
  empty _ := E.size_eq.symm ▸ E

/-- The rehash of a table without an id, while it inserts a key, gives an id to a grown shape. -/
theorem Placed.rehash_grown {t1 : SQTable K V} {k : K} {mp : Nat} (P : Placed o t k t1 mp)
    (R : Represents o t m) (hnew : k ∉ m) (h0 : t.classTypeId = 0) {depth : Nat}
    {t3 : SQTable K V}
    (h : Table.rehash o (newSlot o (depth + 1)) true { t1 with firstfree := 0 } = some t3)
    (hid : t3.classTypeId ≠ 0) : ∃ a us, Grown o.shape a us t3.shape := by
  obtain ⟨a, hn, hlt⟩ := P.rehashSize R hnew
  have hpos : 0 < 2 ^ (a + 1) := Nat.two_pow_pos (a + 1)
  have E : EmptyArray (2 ^ (a + 1)) (freshNodes o (2 ^ (a + 1)) { t1 with firstfree := 0 }) :=
    emptyArray_freshNodes hpos _ (P.classTypeId_eq.trans h0)
  rw [rehash_of_some hn] at h
  have hsize : (m.insert k (t1.valAt mp)).keys.card <
      (freshNodes o (2 ^ (a + 1)) { t1 with firstfree := 0 }).size := by
    rw [size_freshNodes hpos]
    exact hlt
  exact ⟨a, _, foldlM_grown (P.stores_insert R) (represents_freshNodes ⟨a + 1, rfl⟩ _)
    (dense_freshNodes _ _) E rfl hsize depth _ h hid⟩

/-- A table without keys takes its first string key like a new one, or it is rehashed. -/
theorem newSlot_tracked_empty (R : Represents o t m) (E : EmptyArray t.size t) {k : K} (hnew : k ∉ m)
    {v : V} {depth : Nat} {t' : SQTable K V} {b : Bool}
    (h : newSlot o (depth + 2) t k v = some (t', b)) (hid : t'.classTypeId ≠ 0) :
    ∃ a us, Grown o.shape a us t'.shape := by
  have habs := R.stores.not_mem_iff.1 hnew
  have hk : (t.nodes (mainPosition o t k)).key = none := E.key_none _
  have hp : placeKey o t (mainPosition o t k) = some (t, mainPosition o t k) := by
    simp [placeKey, hk]
  rcases newSlot_of_placeKey (getNode_of_absent R.wf habs) hp (depth + 1) v with
    ⟨f, hf, -⟩ | ⟨-, he⟩
  · obtain ⟨b', hb⟩ := R.size_pow
    cases b' with
    | zero =>
      -- the only node holds the new key
      obtain ⟨hle, hfr, -⟩ := correctFirstfree_some hf
      have hfree := E.firstfree_le
      have hmain := mainPosition_le o t k
      rw [size, pow_zero] at hb
      rw [isFree_iff, keyAt_setKey] at hfr
      have h0 : f = mainPosition o t k := by omega
      rw [h0, Function.update_self] at hfr
      exact absurd hfr.1 (by simp)
    | succ a =>
      rw [hb] at E
      have hf' : ∃ f, correctFirstfree
          (t.shape.setKey (mainPosition o.shape t.shape k) (some k)) t.shape.firstfree = some f := by
        refine ⟨f, ?_⟩
        rw [← shape_setKey, shape_correctFirstfree]
        exact hf
      have hs := newSlot_shape_two R h
      exact ⟨a, [k], .first (newSlot_empty E.shape hf' hs hid) hid⟩
  · have P := placed_put R.wf habs hk
    obtain ⟨t3, he3, R3, -⟩ := P.rehash R hnew depth
    obtain ⟨i, hi⟩ := R3.stores.mem_iff.1 (Finmap.mem_insert.2 (.inl rfl))
    rw [he, he3] at h
    have h' : newSlot o (depth + 1) t3 k v = some (t', b) := h
    rw [newSlot_of_key R3.wf hi depth v, Option.some.injEq, Prod.mk.injEq] at h'
    rw [← h'.1] at hid ⊢
    rw [shape_setVal]
    exact P.rehash_grown R hnew E.classTypeId_eq he3 hid

theorem newSlot_tracked (R : Represents o t m) (T : Tracked o t) {k : K} {v : V} {depth : Nat}
    {t' : SQTable K V} {b : Bool} (h : newSlot o (depth + 2) t k v = some (t', b)) :
    Tracked o t' := by
  -- the value of a key that is there does not touch the shape
  by_cases hk : k ∈ m
  · obtain ⟨i, hi⟩ := R.stores.mem_iff.1 hk
    rw [newSlot_of_key R.wf hi (depth + 1) v, Option.some.injEq, Prod.mk.injEq] at h
    rw [← h.1]
    exact T.of_shape_eq (shape_setVal t i v)
  · constructor
    case empty =>
      intro hu
      obtain ⟨t2, b2, he, R2⟩ := newSlot_represents R depth k v
      rw [h, Option.some.injEq, Prod.mk.injEq] at he
      rw [he.1, R2.usednodes_eq, card_keys_insert hk] at hu
      exact absurd hu (by omega)
    case grown =>
      intro hid
      by_cases h0 : t.classTypeId = 0
      · by_cases hu : t.usednodes = 0
        · exact newSlot_tracked_empty R (T.empty hu) hk h hid
        · rcases newSlot_cases R.wf (depth + 1) k v with
            ⟨i, hi, -⟩ | ⟨-, t1, mp, P, ⟨f, -, he⟩ | ⟨-, he⟩⟩
          · exact absurd hi (R.stores.not_mem_iff.1 hk i)
          · -- without a rehash only the first key of a table starts an id
            rw [h, Option.some.injEq, Prod.mk.injEq] at he
            rw [he.1] at hid
            obtain ⟨-, -, ⟨h1, -⟩ | ⟨-, h1, -⟩⟩ := finishSlot_ne_zero hid
            · exact absurd (P.classTypeId_eq.trans h0) h1
            · exact absurd (P.usednodes_eq.symm.trans h1) hu
          · obtain ⟨t3, he3, R3, -⟩ := P.rehash R hk depth
            obtain ⟨i, hi⟩ := R3.stores.mem_iff.1 (Finmap.mem_insert.2 (.inl rfl))
            rw [he, he3] at h
            have h' : newSlot o (depth + 1) t3 k v = some (t', b) := h
            rw [newSlot_of_key R3.wf hi depth v, Option.some.injEq, Prod.mk.injEq] at h'
            rw [← h'.1] at hid ⊢
            rw [shape_setVal]
            exact P.rehash_grown R hk h0 he3 hid
      · obtain ⟨a, us, hg⟩ := T.grown h0
        refine ⟨a, us ++ [k], .next hg (fun hx => hk ?_) (newSlot_shape_two R h) hid⟩
        exact R.stores.mem_iff.2 (hg.mem_iff.1 hx)

omit [DecidableEq K] in
/-- A rehash without keys gives an empty array. -/
theorem rehash_without_keys {t t' : SQTable K V} (hkey : ∀ i, t.keyAt i = none)
    {ns : SQTable K V → K → V → Option (SQTable K V × Bool)} {force : Bool} {n : Nat}
    (hn : rehashSize force t = some n) (h : rehash o ns force t = some t') :
    t' = freshNodes o n t := by
  have hnil : keysBelow t t.size = [] := by
    rw [List.eq_nil_iff_forall_not_mem]
    intro x hx
    obtain ⟨i, -, hi⟩ := mem_keysBelow.1 hx
    rw [hkey i] at hi
    exact absurd hi (by simp)
  rw [rehash_of_some hn, foldlM_reinsertNode_nil hnil] at h
  exact (Option.some.inj h).symm

omit [DecidableEq K] in
/-- In an array of two nodes or fewer no node is linked. -/
theorem WellFormed.next_none_of_small (W : WellFormed o t) (h : t.size ≤ 2) (i : Nat) :
    t.nextAt i = none := by
  by_contra hne
  obtain ⟨j, hj⟩ := Option.ne_none_iff_exists'.1 hne
  have hgt := W.next_gt hj
  obtain ⟨hi, hj'⟩ := W.next_le hj
  have hij := W.linked.next_ne_self hj
  have hif : i ≠ t.firstfree := by
    rintro rfl
    rw [W.free.2] at hj
    exact absurd hj (by simp)
  rw [size] at h
  omega

theorem Represents.keyAt_empty (R : Represents o t ∅) (i : Nat) : t.keyAt i = none := by
  by_contra hne
  obtain ⟨k, hk⟩ := Option.ne_none_iff_exists'.1 hne
  exact R.stores.not_mem_iff.1 Finmap.notMem_empty i hk

theorem remove_tracked (R : Represents o t m) (T : Tracked o t) {k : K} {depth : Nat}
    {t' : SQTable K V} (h : remove o (depth + 1) t k = some t') : Tracked o t' := by
  rcases getNode_cases R.wf k with ⟨i, hi, hg⟩ | ⟨-, hg⟩
  · obtain ⟨t2, he, R2⟩ := remove_represents R depth k
    rw [h] at he
    obtain rfl := Option.some.inj he
    have R1 := R.freedNode hi
    rw [remove_of_node hg, Option.map_eq_some_iff] at h
    obtain ⟨t3, h3, rfl⟩ := h
    constructor
    case grown => intro hid; exact absurd rfl hid
    case empty =>
      intro hu
      have hm : m.erase k = ∅ := by
        rw [R2.usednodes_eq, Finset.card_eq_zero] at hu
        apply Finmap.ext_lookup
        intro x
        rw [Finmap.lookup_empty, Finmap.lookup_eq_none, ← Finmap.mem_keys, hu]
        exact Finset.notMem_empty x
      rw [hm] at R1 R2
      have hused : (freedNode o t i).usednodes = 0 := R1.usednodes_eq
      cases hn : rehashSize false (freedNode o t i) with
      | none =>
        -- no shrinking: there are too few nodes for a link
        rw [rehash_of_none hn, Option.some.injEq] at h3
        subst h3
        have hsmall : (freedNode o t i).size ≤ 2 := by
          obtain ⟨b, hb⟩ := R1.size_pow
          have h4 : ¬ (freedNode o t i).size ≥ 4 := by
            intro h4
            simp only [rehashSize, countUsed, hused] at hn
            rw [if_neg (by omega), if_pos (by rw [minPower2]; omega)] at hn
            exact absurd hn (by simp)
          cases b with
          | zero => omega
          | succ b =>
            cases b with
            | zero => omega
            | succ b =>
              have hpos : 0 < 2 ^ b := Nat.two_pow_pos b
              omega
        exact ⟨R2.keyAt_empty, R1.wf.next_none_of_small hsmall, rfl, hused, rfl,
          R1.wf.firstfree_le, .inr hsmall⟩
      | some n =>
        obtain ⟨hlt, -⟩ := rehashSize_some (c := 0) hn (Nat.zero_le _) (Nat.zero_le _) R1.size_pow
        obtain rfl := rehash_without_keys R1.keyAt_empty hn h3
        have E := emptyArray_freshNodes (o := o) hlt { freedNode o t i with classTypeId := 0 } rfl
        exact E.size_eq.symm ▸ ⟨E.key_none, E.next_none, E.size_eq, rfl, rfl, E.firstfree_le,
          E.firstfree_eq⟩
  · rw [remove, hg, Option.some.injEq] at h
    exact h ▸ T

theorem clear_tracked (R : Represents o t m) {depth : Nat} {doRehash : Bool} {t' : SQTable K V}
    (h : clear o (depth + 1) t doRehash = some t') : Tracked o t' := by
  have hempty := clearNodes_empty R
  cases doRehash with
  | false =>
    obtain rfl := Option.some.inj h
    exact .of_empty (n := t.size) ⟨fun i => (hempty i).1, fun i => (hempty i).2, rfl, rfl, rfl,
      le_refl _, .inl rfl⟩
  | true =>
    obtain ⟨n, hn⟩ := rehashSize_force
      ({ clearNodes o t with usednodes := 0, classTypeId := 0, recorded := [] } : SQTable K V)
    obtain ⟨hlt, -⟩ := rehashSize_some (c := 0) hn (Nat.zero_le _) (Nat.zero_le _) R.size_pow
    have hkey : ∀ i, ({ clearNodes o t with usednodes := 0, classTypeId := 0, recorded := [] } :
        SQTable K V).keyAt i = none := fun i => (hempty i).1
    obtain rfl := rehash_without_keys hkey hn h
    exact .of_empty (emptyArray_freshNodes hlt _ rfl)

theorem clone_tracked (R : Represents o t m) (T : Tracked o t) : Tracked o (clone o t) := by
  apply T.of_shape_eq
  have hnodes : (clone o t).shape.nodes = t.shape.nodes := by
    funext i
    show ((clone o t).nodes i).shape = (t.nodes i).shape
    by_cases hi : i < t.numofnodesMinusOne + 1
    · rw [nodes_clone_of_lt hi]
    · obtain ⟨hk, hx⟩ := R.wf.outside fun hle => hi (Nat.lt_succ_of_le hle)
      have hk' : (t.nodes i).key = none := hk
      have hx' : (t.nodes i).next = none := hx
      rw [nodes_clone_of_not_lt hi, HashNode.shape, HashNode.shape, hk', hx']
      rfl
  have hn : (clone o t).shape.numofnodesMinusOne = t.shape.numofnodesMinusOne :=
    numofnodesMinusOne_clone (o := o) R.size_pow
  show (⟨_, (clone o t).shape.nodes, (clone o t).shape.numofnodesMinusOne, _, _, _⟩ :
    SQTable K Unit) = _
  rw [hnodes, hn]
  rfl

theorem create_tracked (n : Int) : Tracked o (create o n) := by
  refine .of_empty (n := (create o n).size) ⟨fun _ => rfl, fun _ => rfl, rfl, rfl, rfl, le_refl _,
    .inl rfl⟩

/-! ## Runs -/

theorem applyOp_tracked (R : Represents o t m) (T : Tracked o t) {depth : Nat} {op : TableOp K V}
    {t' : SQTable K V} (h : applyOp o (depth + 2) t op = some t') : Tracked o t' := by
  cases op with
  | newSlot key val =>
    obtain ⟨⟨t2, b⟩, h2, rfl⟩ := Option.map_eq_some_iff.1 h
    exact newSlot_tracked R T h2
  | set key val =>
    obtain ⟨⟨t2, b⟩, h2, rfl⟩ := Option.map_eq_some_iff.1 h
    obtain ⟨n, -, hn⟩ := Option.map_eq_some_iff.1 h2
    cases n with
    | none => exact (Prod.mk.inj hn).1 ▸ T
    | some i => exact (Prod.mk.inj hn).1 ▸ T.of_shape_eq (shape_setVal t i val)
  | remove key => exact remove_tracked R T h
  | clear doRehash => exact clear_tracked R h
  | clone => exact Option.some.inj h ▸ clone_tracked R T

theorem foldlM_applyOp_tracked {depth : Nat} {ops : List (TableOp K V)} {t t' : SQTable K V}
    {m : Finmap fun _ : K => V} (R : Represents o t m) (T : Tracked o t)
    (h : ops.foldlM (applyOp o (depth + 2)) t = some t') : Tracked o t' := by
  induction ops generalizing t m with
  | nil => exact Option.some.inj h ▸ T
  | cons op ops ih =>
    obtain ⟨t1, h1, R1⟩ := applyOp_represents R depth op
    rw [List.foldlM_cons, h1] at h
    exact ih R1 (applyOp_tracked R T h1) h

theorem runOps_tracked {depth : Nat} {nInitialSize : Int} {ops : List (TableOp K V)}
    {t : SQTable K V} (h : runOps o (depth + 2) nInitialSize ops = some t) : Tracked o t :=
  foldlM_applyOp_tracked (create_represents nInitialSize) (create_tracked nInitialSize) h

end Quirrel.Table
