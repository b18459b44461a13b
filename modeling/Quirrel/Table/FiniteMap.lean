import Quirrel.Table.NewSlot

/-!
# `SQTable` is a finite map

Every operation on a table that stands for a finite map gives a table that stands for the map after
the operation of the same meaning (`applyOp_represents`), so a run of operations on a new table
never gets stuck and stands for the run of the map operations (`runOps_represents`). The value that
`Get` returns is the stored one read through `_realval` (`get_eq_lookup`).
-/

set_option autoImplicit false

namespace Quirrel.Table

open Quirrel.Lib SQTable

universe u v

variable {K : Type u} {V : Type v} {o : ObjectOps K V} [DecidableEq K] {t : SQTable K V}
  {m : Finmap fun _ : K => V}

/-! ## The operations -/

theorem set_represents (R : Represents o t m) (k : K) (v : V) :
    ∃ t', set o t k v = some (t', decide (k ∈ m)) ∧
      Represents o t' (if k ∈ m then m.insert k v else m) := by
  rcases getNode_cases R.wf k with ⟨i, hi, hg⟩ | ⟨hnew, hg⟩
  · have hk : k ∈ m := R.stores.mem_iff.2 ⟨i, hi⟩
    refine ⟨t.setVal i v, by simp [set, hg, hk], ?_⟩
    rw [if_pos hk]
    exact R.setVal hi v
  · have hk : k ∉ m := R.stores.not_mem_iff.2 hnew
    refine ⟨t, by simp [set, hg, hk], ?_⟩
    rw [if_neg hk]
    exact R

/-- The table after `Remove` emptied node `i`, before it rehashes. -/
def freedNode (o : ObjectOps K V) (t : SQTable K V) (i : Nat) : SQTable K V :=
  let t1 := t.setNode i { t.nodes i with val := o.null, key := none }
  { t1 with usednodes := t1.usednodes - 1 }

/-- Emptying the node of a key. -/
theorem Represents.freedNode (R : Represents o t m) {i : Nat} {k : K} (hi : t.keyAt i = some k) :
    Represents o (freedNode o t i) (m.erase k) := by
  have hkey : (Table.freedNode o t i).keyAt = Function.update t.keyAt i none := by
    simp [Table.freedNode]
  have hnext : (Table.freedNode o t i).nextAt = t.nextAt := by
    have hset := nextAt_setNode t i { t.nodes i with val := o.null, key := none }
    rwa [show (t.nodes i).next = t.nextAt i from rfl, Function.update_eq_self] at hset
  have hval : (Table.freedNode o t i).valAt = Function.update t.valAt i o.null := by
    simp [Table.freedNode]
  -- the freed node holds no key any more, the others hold theirs
  have hold : ∀ {j k'}, Function.update t.keyAt i none j = some k' →
      j ≠ i ∧ t.keyAt j = some k' := by
    intro j k' hj
    by_cases hji : j = i
    · simp [hji] at hj
    · exact ⟨hji, by simpa [hji] using hj⟩
  constructor
  case wf =>
    constructor
    case linked =>
      rw [hkey, hnext]
      exact R.wf.linked.erase i
    case key_le =>
      intro j k' hj
      rw [hkey] at hj
      exact R.wf.key_le (hold hj).2
    case next_le =>
      intro j j' hj
      rw [hnext] at hj
      exact R.wf.next_le hj
    case firstfree_le => exact R.wf.firstfree_le
    case free =>
      rw [hkey, hnext]
      refine ⟨?_, R.wf.free.2⟩
      show Function.update t.keyAt i none t.firstfree = none
      by_cases hf : t.firstfree = i
      · rw [hf, Function.update_self]
      · rw [Function.update_of_ne hf, R.wf.free.1]
    case next_gt =>
      intro j j' hj
      rw [hnext] at hj
      exact R.wf.next_gt hj
  case holds =>
    intro k' v'
    rw [Holds, hkey, hval]
    -- the key itself has left the map; the other keys keep node and value
    by_cases hk : k' = k
    · subst hk
      rw [Finmap.lookup_erase]
      constructor
      · rintro ⟨j, hj, -⟩
        obtain ⟨hji, hj⟩ := hold hj
        exact absurd (R.wf.linked.key_inj hj hi) hji
      · intro h
        exact absurd h (by simp)
    · rw [Finmap.lookup_erase_ne hk, ← R.holds]
      constructor
      · rintro ⟨j, hj, hv⟩
        obtain ⟨hji, hj⟩ := hold hj
        exact ⟨j, hj, by rwa [Function.update_of_ne hji] at hv⟩
      · rintro ⟨j, hj, hv⟩
        have hji : j ≠ i := by
          rintro rfl
          rw [hi] at hj
          exact hk (Option.some.inj hj).symm
        exact ⟨j, by rwa [Function.update_of_ne hji], by rwa [Function.update_of_ne hji]⟩
  case usednodes_eq =>
    have hmem : k ∈ m.keys := Finmap.mem_keys.2 (R.stores.mem_iff.2 ⟨i, hi⟩)
    show t.usednodes - 1 = (m.erase k).keys.card
    rw [Finmap.keys_erase, Finset.card_erase_of_mem hmem, R.usednodes_eq]
  case size_pow => exact R.size_pow

/-- The shape id is no part of the map. -/
theorem Represents.setClassTypeId (R : Represents o t m) (c : UInt64) (r : List (Nat × K)) :
    Represents o { t with classTypeId := c, recorded := r } m where
  wf := ⟨R.wf.linked, R.wf.key_le, R.wf.next_le, R.wf.firstfree_le, R.wf.free, R.wf.next_gt⟩
  holds := R.holds
  usednodes_eq := R.usednodes_eq
  size_pow := R.size_pow

theorem remove_of_node {k : K} {i : Nat} (hg : getNode o t k = some (some i)) (depth : Nat) :
    remove o depth t k =
      (rehash o (newSlot o depth) false (freedNode o t i)).map
        fun t2 => { t2 with classTypeId := 0, recorded := [] } := by
  rw [remove, hg]
  unfold freedNode
  dsimp only
  split
  · next hfull =>
    rw [hfull]
    rfl
  · next t2 hfreed =>
    rw [hfreed]
    rfl

theorem remove_represents (R : Represents o t m) (depth : Nat) (k : K) :
    ∃ t', remove o (depth + 1) t k = some t' ∧ Represents o t' (m.erase k) := by
  rcases getNode_cases R.wf k with ⟨i, hi, hg⟩ | ⟨hnew, hg⟩
  · have R1 := R.freedNode hi
    obtain ⟨t', he, R'⟩ := rehash_represents R1 depth false
    exact ⟨_, by rw [remove_of_node hg, he]; rfl, R'.setClassTypeId 0 []⟩
  · refine ⟨t, by simp [remove, hg], ?_⟩
    have hk := R.stores.not_mem_iff.2 hnew
    have herase : m.erase k = m := by
      apply Finmap.ext_lookup
      intro x
      by_cases hx : x = k
      · rw [hx, Finmap.lookup_erase, Finmap.lookup_eq_none.2 hk]
      · rw [Finmap.lookup_erase_ne hx]
    rw [herase]
    exact R

theorem clearNodes_empty (R : Represents o t m) (i : Nat) :
    (clearNodes o t).keyAt i = none ∧ (clearNodes o t).nextAt i = none := by
  by_cases hi : i ≤ t.numofnodesMinusOne
  · simp [clearNodes, keyAt, nextAt, hi, emptyNode]
  · obtain ⟨hk, hn⟩ := R.wf.outside hi
    have hk' : (t.nodes i).key = none := hk
    have hn' : (t.nodes i).next = none := hn
    simp [clearNodes, keyAt, nextAt, hi, hk', hn']

theorem clear_represents (R : Represents o t m) (depth : Nat) (doRehash : Bool) :
    ∃ t', clear o (depth + 1) t doRehash = some t' ∧ Represents o t' ∅ := by
  have hempty := clearNodes_empty R
  cases doRehash with
  | false =>
    refine ⟨_, rfl, ?_⟩
    apply represents_empty
    · exact fun i => (hempty i).1
    · exact fun i => (hempty i).2
    · exact le_refl _
    · rfl
    · exact R.size_pow
  | true =>
    have R1 : Represents o
        ({ clearNodes o t with usednodes := 0, classTypeId := 0, recorded := [] } : SQTable K V)
        ∅ := by
      apply represents_empty
      · exact fun i => (hempty i).1
      · exact fun i => (hempty i).2
      · exact R.wf.firstfree_le
      · rfl
      · exact R.size_pow
    obtain ⟨t', he, R'⟩ := rehash_represents R1 depth true
    exact ⟨t', by simpa [clear] using he, R'⟩

/-! ## Creation and copies -/

theorem growPow2_pow (n : Int) (fuel a : Nat) : ∃ b, growPow2 n fuel (2 ^ a) = 2 ^ b := by
  induction fuel generalizing a with
  | zero => exact ⟨a, rfl⟩
  | succ fuel ih =>
    rw [growPow2]
    split
    · rw [← pow_succ]
      exact ih (a + 1)
    · exact ⟨a, rfl⟩

/-- A size that is a power of two is not rounded up. -/
theorem growPow2_eq {a b fuel : Nat} (hab : a ≤ b) (hf : b - a ≤ fuel) :
    growPow2 ((2 ^ b : Nat) : Int) fuel (2 ^ a) = 2 ^ b := by
  induction fuel generalizing a with
  | zero =>
    obtain rfl : a = b := by omega
    rfl
  | succ fuel ih =>
    rw [growPow2]
    by_cases hlt : a < b
    · have hpow : 2 ^ a < 2 ^ b := Nat.pow_lt_pow_right (by omega) hlt
      rw [if_pos (by exact_mod_cast hpow), ← pow_succ]
      exact ih hlt (by omega)
    · obtain rfl : a = b := by omega
      rw [if_neg (by exact lt_irrefl _)]

theorem create_represents (nInitialSize : Int) : Represents o (create o nInitialSize) ∅ := by
  apply represents_empty
  · exact fun i => rfl
  · exact fun i => rfl
  · exact le_refl _
  · rfl
  · obtain ⟨b, hb⟩ := growPow2_pow nInitialSize nInitialSize.toNat 0
    have hpos : 0 < 2 ^ b := Nat.two_pow_pos b
    refine ⟨b, ?_⟩
    show growPow2 nInitialSize nInitialSize.toNat (2 ^ 0) - 1 + 1 = 2 ^ b
    rw [hb]
    omega

omit [DecidableEq K] in
/-- A copy has as many nodes as the table, because that number is a power of two. -/
theorem numofnodesMinusOne_clone (hpow : ∃ a, t.size = 2 ^ a) :
    (clone o t).numofnodesMinusOne = t.numofnodesMinusOne := by
  obtain ⟨a, ha⟩ := hpow
  have hfuel : a - 0 ≤ ((t.numofnodesMinusOne + 1 : Nat) : Int).toNat := by
    rw [Int.toNat_natCast, ← size, ha]
    exact Nat.lt_two_pow_self.le
  have hgrow : growPow2 ((t.numofnodesMinusOne + 1 : Nat) : Int)
      ((t.numofnodesMinusOne + 1 : Nat) : Int).toNat (2 ^ 0) = 2 ^ a := by
    rw [show t.numofnodesMinusOne + 1 = 2 ^ a from ha] at hfuel ⊢
    exact growPow2_eq (Nat.zero_le a) hfuel
  show growPow2 ((t.numofnodesMinusOne + 1 : Nat) : Int)
      ((t.numofnodesMinusOne + 1 : Nat) : Int).toNat (2 ^ 0) - 1 = t.numofnodesMinusOne
  rw [hgrow, ← ha, size]
  omega

omit [DecidableEq K] in
theorem nodes_clone_of_lt {i : Nat} (hi : i < t.numofnodesMinusOne + 1) :
    (clone o t).nodes i = t.nodes i :=
  if_pos hi

omit [DecidableEq K] in
theorem nodes_clone_of_not_lt {i : Nat} (hi : ¬ i < t.numofnodesMinusOne + 1) :
    (clone o t).nodes i = emptyNode o :=
  if_neg hi

theorem clone_represents (R : Represents o t m) : Represents o (clone o t) m := by
  have hn := numofnodesMinusOne_clone (o := o) R.size_pow
  have hlinks : ∀ i, (clone o t).keyAt i = t.keyAt i ∧ (clone o t).nextAt i = t.nextAt i := by
    intro i
    -- the nodes of the table are copied, and outside of it both have empty ones
    by_cases hi : i < t.numofnodesMinusOne + 1
    · rw [keyAt, nextAt, nodes_clone_of_lt hi]
      exact ⟨rfl, rfl⟩
    · obtain ⟨hk, hx⟩ := R.wf.outside fun hle => hi (Nat.lt_succ_of_le hle)
      rw [hk, hx, keyAt, nextAt, nodes_clone_of_not_lt hi]
      exact ⟨rfl, rfl⟩
  have hkey : (clone o t).keyAt = t.keyAt := funext fun i => (hlinks i).1
  have hnext : (clone o t).nextAt = t.nextAt := funext fun i => (hlinks i).2
  have hfree : (clone o t).firstfree = t.firstfree := rfl
  constructor
  case wf =>
    constructor
    case linked =>
      rw [mainPosition_congr hn, hkey, hnext]
      exact R.wf.linked
    case key_le =>
      intro i k hk
      rw [hkey] at hk
      rw [hn]
      exact R.wf.key_le hk
    case next_le =>
      intro i j hj
      rw [hnext] at hj
      rw [hn]
      exact R.wf.next_le hj
    case firstfree_le =>
      rw [hfree, hn]
      exact R.wf.firstfree_le
    case free =>
      rw [hkey, hnext]
      exact R.wf.free
    case next_gt =>
      intro i j hj
      rw [hnext] at hj
      exact R.wf.next_gt hj
  case holds =>
    intro k v
    rw [← R.holds, Holds, Holds, hkey]
    have hval : ∀ {i}, t.keyAt i = some k → (clone o t).valAt i = t.valAt i := by
      intro i hi
      rw [valAt, nodes_clone_of_lt (Nat.lt_succ_of_le (R.wf.key_le hi))]
      rfl
    constructor
    · rintro ⟨i, hi, hv⟩
      exact ⟨i, hi, by rwa [hval hi] at hv⟩
    · rintro ⟨i, hi, hv⟩
      exact ⟨i, hi, by rwa [hval hi]⟩
  case usednodes_eq => exact R.usednodes_eq
  case size_pow =>
    obtain ⟨a, ha⟩ := R.size_pow
    exact ⟨a, by rw [size, hn]; exact ha⟩

/-! ## Runs -/

/-- The map operation that a table operation stands for. -/
def specOp (m : Finmap fun _ : K => V) : TableOp K V → Finmap fun _ : K => V
  | .newSlot key val => m.insert key val
  | .set key val => if key ∈ m then m.insert key val else m
  | .remove key => m.erase key
  | .clear _ => ∅
  | .clone => m

/-- The finite map after a sequence of operations on an empty one. -/
def specOps (ops : List (TableOp K V)) : Finmap fun _ : K => V :=
  ops.foldl specOp ∅

theorem applyOp_represents (R : Represents o t m) (depth : Nat) (op : TableOp K V) :
    ∃ t', applyOp o (depth + 2) t op = some t' ∧ Represents o t' (specOp m op) := by
  cases op with
  | newSlot key val =>
    obtain ⟨t', b, he, R'⟩ := newSlot_represents R depth key val
    exact ⟨t', by simp [applyOp, he], R'⟩
  | set key val =>
    obtain ⟨t', he, R'⟩ := set_represents R key val
    exact ⟨t', by simp [applyOp, he], R'⟩
  | remove key => exact remove_represents R (depth + 1) key
  | clear doRehash => exact clear_represents R (depth + 1) doRehash
  | clone => exact ⟨clone o t, rfl, clone_represents R⟩

/-- From a table that stands for `m`, a run stands for the run of the map operations from `m`. -/
theorem foldlM_applyOp_represents (depth : Nat) (ops : List (TableOp K V)) {t : SQTable K V}
    {m : Finmap fun _ : K => V} (R : Represents o t m) :
    ∃ t', ops.foldlM (applyOp o (depth + 2)) t = some t' ∧
      Represents o t' (ops.foldl specOp m) := by
  induction ops generalizing t m with
  | nil => exact ⟨t, rfl, R⟩
  | cons op ops ih =>
    obtain ⟨t1, h1, R1⟩ := applyOp_represents R depth op
    obtain ⟨t', h', R'⟩ := ih R1
    exact ⟨t', by rw [List.foldlM_cons, h1]; exact h', R'⟩

theorem runOps_represents (depth : Nat) (nInitialSize : Int) (ops : List (TableOp K V)) :
    ∃ t, runOps o (depth + 2) nInitialSize ops = some t ∧ Represents o t (specOps ops) :=
  foldlM_applyOp_represents depth ops (create_represents nInitialSize)

/-- `Get` returns the value of the map, read through a weak reference. -/
theorem get_eq_lookup (R : Represents o t m) (k : K) :
    get o t k = some ((m.lookup k).map o.realval) := by
  rcases getNode_cases R.wf k with ⟨i, hi, hg⟩ | ⟨hnew, hg⟩
  · have hv : m.lookup k = some (t.valAt i) := R.holds.1 ⟨i, hi, rfl⟩
    rw [get, hg, hv]
    rfl
  · have hk : m.lookup k = none := Finmap.lookup_eq_none.2 (R.stores.not_mem_iff.2 hnew)
    rw [get, hg, hk]
    rfl

/-- A present key is in exactly one node. -/
theorem existsUnique_node (R : Represents o t m) {k : K} (hk : k ∈ m) :
    ∃! i, i < t.size ∧ t.keyAt i = some k := by
  obtain ⟨i, hi⟩ := R.stores.mem_iff.1 hk
  refine ⟨i, ⟨Nat.lt_succ_of_le (R.wf.key_le hi), hi⟩, ?_⟩
  rintro j ⟨-, hj⟩
  exact R.wf.linked.key_inj hj hi

/-- A lookup chain meets no node twice and stays inside of the node array. -/
theorem chain_acyclic (R : Represents o t m) {i : Nat} (hi : i < t.size) :
    ∃ l, Walk t.nextAt i l ∧ l.Nodup ∧ l.length ≤ t.size := by
  obtain ⟨l, hw⟩ := R.wf.linked.walk i
  exact ⟨l, hw, hw.nodup, R.wf.walk_length_le (Nat.le_of_lt_succ hi) hw⟩

theorem runOps_is_finite_map (o : ObjectOps K V) (depth : Nat) (nInitialSize : Int)
    (ops : List (TableOp K V)) :
    ∃ t, runOps o (depth + 2) nInitialSize ops = some t ∧
      (∀ k, get o t k = some (((specOps ops).lookup k).map o.realval)) ∧
      t.countUsed = (specOps ops).keys.card ∧
      (∀ k ∈ specOps ops, ∃! i, i < t.size ∧ t.keyAt i = some k) ∧
      ∀ i < t.size, ∃ l, Walk t.nextAt i l ∧ l.Nodup ∧ l.length ≤ t.size := by
  obtain ⟨t, he, R⟩ := runOps_represents (o := o) depth nInitialSize ops
  refine ⟨t, he, get_eq_lookup R, R.usednodes_eq, ?_, ?_⟩
  · intro k hk
    exact existsUnique_node R hk
  · intro i hi
    exact chain_acyclic R hi

/-- Objects where `Sum.inl n` is an object and `Sum.inr n` is a weak reference to it. -/
def weakRefOps : ObjectOps Nat (Nat ⊕ Nat) where
  hashObj := id
  stringAddr _ := none
  null := .inl 0
  realval v := .inl (v.elim id id)

/-- A stored weak reference is not what `Get` returns. -/
theorem get_weakRef_ne_stored :
    ∃ t, runOps weakRefOps 2 4 [.newSlot 7 (.inr 5)] = some t ∧
      (specOps [TableOp.newSlot 7 (Sum.inr 5)] : Finmap fun _ : Nat => Nat ⊕ Nat).lookup 7 =
        some (.inr 5) ∧
      get weakRefOps t 7 = some (some (.inl 5)) := by
  obtain ⟨t, he, R⟩ := runOps_represents (o := weakRefOps) 0 4 [.newSlot 7 (.inr 5)]
  have hl : (specOps [TableOp.newSlot 7 (Sum.inr 5)] : Finmap fun _ : Nat => Nat ⊕ Nat).lookup 7 =
      some (.inr 5) := by simp [specOps, specOp]
  refine ⟨t, he, hl, ?_⟩
  rw [get_eq_lookup R, hl]
  rfl

end Quirrel.Table
