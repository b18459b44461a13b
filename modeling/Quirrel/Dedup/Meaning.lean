import Quirrel.Dedup.Preservation

set_option autoImplicit false

/-!
# `sq_deduplicate_object` and what its callers rely on

The call returns for every graph, cyclic ones included. Where tables that agree in their slots agree in
their delegates and in the sizes of their node arrays, which `IsBinaryEqual` does not compare, every
path reads what it read. The container that another one has replaced is freed with its last reference,
and a weak reference to it reads null from then on.
-/

namespace Quirrel.Dedup

open Quirrel.Table (SQTable ObjectOps Represents)

variable {hashObj : SQObject → Nat}

/-- What the callers rely on: every path from the object reads what it read before the weak references
to the freed containers became null, only containers with a twin are freed, nothing refers to them,
and the node arrays that are compared have one size. -/
structure Preserved (hashObj : SQObject → Nat) (H : Heap) (s : State) : Prop where
  reads : ∀ path, (view hashObj s.heap s.freed).observe path s.heap.root.obj
    = (view hashObj H s.freed).observe path H.root.obj
  freed : ∀ x ∈ s.freed, H.HasTwin x ∧ s.refers x = false
  sizes : ∀ q ∈ s.asked, comparesNodes q.thisId q.otherId q.this q.other = true →
    q.other.table.size = q.this.table.size

/-- A table that represents a finite map has its keys in its node array. -/
theorem keysInside_of_represents {H : Heap}
    (htables : ∀ T ∈ H.tables, ∃ m, Represents (objectOps hashObj []) T.table m) :
    H.KeysInside := by
  intro T hT
  obtain ⟨m, R⟩ := htables T hT
  constructor
  · intro i hkey
    obtain ⟨key, hkey⟩ := Option.ne_none_iff_exists'.mp hkey
    exact Nat.lt_succ_of_le (R.wf.key_le hkey)
  · intro hzero i
    by_contra hkey
    obtain ⟨key, hkey⟩ := Option.ne_none_iff_exists'.mp hkey
    have hmem : key ∈ m := R.stores.mem_iff.mpr ⟨i, hkey⟩
    have hempty : m.keys = ∅ := Finset.card_eq_zero.mp (R.usednodes_eq.symm.trans hzero)
    exact Finset.notMem_empty key (hempty ▸ Finmap.mem_keys.mpr hmem)

/-- Before the call nothing is freed and the caches are empty. -/
theorem Inv.start (M : Memory) (H : Heap) :
    Inv hashObj M H ⟨H, [], fun _ => .null, fun _ => .null, []⟩ where
  shape := rfl
  slots _ _ hread := .inl hread
  reads _ := SameReads.refl H
  tableCache _ := .inl rfl
  arrayCache _ := .inl rfl
  freed := nofun
  asked := nofun

/-! ## Two empty tables and a weak reference -/

/-- The table `{}`. -/
def emptyTable : SQTable SQObject SQObjectPtr := Table.create (objectOps (fun _ => 0) []) 0

/-- Node arrays of one free node have the same bytes. -/
def freeNodeMemory : Memory where
  tableWords _ _ := []
  arrayWords _ _ := []
  behind _ _ := ⟨⟨.null, false⟩, none, none⟩
  sameTableRest _ _ := true
  sameArrayRest _ _ := true

/-- `[{}, {}, w]` with a weak reference `w` to the second table, which may have a delegate. -/
def twoTables (delegate : Option Nat) : Heap where
  root := ⟨.array 0, false⟩
  tables := [⟨emptyTable, none⟩, ⟨emptyTable, delegate⟩, ⟨emptyTable, none⟩]
  arrays := [[⟨.table 0, false⟩, ⟨.table 1, false⟩, ⟨.weakref (.table 1), false⟩]]
  held := []

theorem twoTables_represents (delegate : Option Nat) :
    ∀ T ∈ (twoTables delegate).tables,
      ∃ m, Represents (objectOps (fun _ => 0) []) T.table m := by
  have hcreate := Table.create_represents (o := objectOps (fun _ => 0) []) 0
  simp only [twoTables, List.forall_mem_cons]
  exact ⟨⟨_, hcreate⟩, ⟨_, hcreate⟩, ⟨_, hcreate⟩, nofun⟩

/-- All tables of the example are empty. -/
theorem twoTables_empty {delegate : Option Nat} {t : Nat} {T : TableObject}
    (hT : (twoTables delegate).tables[t]? = some T) : T.table = emptyTable := by
  have hmem := List.mem_of_getElem? hT
  simp only [twoTables, List.mem_cons, List.not_mem_nil, or_false] at hmem
  rcases hmem with rfl | rfl | rfl <;> rfl

theorem twoTables_sound (delegate : Option Nat) : (twoTables delegate).Sound := by
  intro slot w hslot hread
  cases slot with
  | root =>
    cases hread
    exact Nat.zero_lt_one
  | nodeVal t i =>
    obtain ⟨X, hX, hkey⟩ := hslot
    simp only [Heap.shape, List.getElem?_map, Option.map_eq_some_iff] at hX
    obtain ⟨T, hT, rfl⟩ := hX
    have hcreate := Table.create_represents (o := objectOps (fun _ => 0) []) 0
    have hnone : (T.table.nodes i).key = none :=
      twoTables_empty hT ▸ hcreate.keyAt_empty i
    exact absurd hnone hkey
  | element a i =>
    obtain ⟨values, hvalues, hi⟩ := Option.bind_eq_some_iff.mp hread
    rcases a with _ | a
    · cases hvalues
      rcases i with _ | _ | _ | i
      · cases hi
        exact Nat.zero_lt_succ _
      · cases hi
        exact Nat.succ_lt_succ (Nat.zero_lt_succ _)
      · cases hi
        trivial
      · cases hi
    · cases hvalues

theorem twoTables_depth (delegate : Option Nat) :
    (twoTables delegate).tables.length + (twoTables delegate).arrays.length < 5 :=
  Nat.lt_succ_self 4

/-- Without the delegate the two tables are equal in everything. -/
theorem twoTables_unambiguous : (twoTables none).Unambiguous freeNodeMemory where
  sizes t o T O T' _ _ _ hO _ _ _ _ _ hused :=
    absurd (congrArg SQTable.usednodes (twoTables_empty hO)) hused
  delegates t o T O _ _ hT hO _ _ := by
    have hnone : ∀ T ∈ (twoTables none).tables, T.delegate = none := by
      simp only [twoTables, List.forall_mem_cons]
      exact ⟨trivial, trivial, trivial, nofun⟩
    rw [hnone O (List.mem_of_getElem? hO), hnone T (List.mem_of_getElem? hT)]

/-! ## What is preserved -/

/-- Every path reads what it read, also through a weak reference to a freed container. -/
def ReadsAsBefore (hashObj : SQObject → Nat) (H : Heap) (s : State) : Prop :=
  ∀ path, (view hashObj s.heap s.freed).observe path s.heap.root.obj
    = (view hashObj H []).observe path H.root.obj

/-- One path that reads something else afterwards. -/
theorem twoTables_not_readsAsBefore {delegate : Option Nat} (path : List Step)
    (after : Option Label)
    (hafter : (sqDeduplicateObject freeNodeMemory 5 (twoTables delegate)).map (fun s =>
      (view (fun _ => 0) s.heap s.freed).observe path s.heap.root.obj) = some after)
    (hne : (view (fun _ => 0) (twoTables delegate) []).observe path (twoTables delegate).root.obj
      ≠ after) :
    (twoTables delegate).Sound ∧
      (∀ T ∈ (twoTables delegate).tables,
        ∃ m, Represents (objectOps (fun _ => 0) []) T.table m) ∧
      ∃ s, sqDeduplicateObject freeNodeMemory 5 (twoTables delegate) = some s ∧
        ¬ ReadsAsBefore (fun _ => 0) (twoTables delegate) s := by
  refine ⟨twoTables_sound _, twoTables_represents _, ?_⟩
  obtain ⟨s, hs⟩ := sqDeduplicateObject_returns (M := freeNodeMemory) (twoTables_sound delegate)
    (twoTables_depth delegate)
  refine ⟨s, hs, fun h => hne ?_⟩
  rw [hs, Option.map_some, Option.some_inj, h] at hafter
  exact hafter

end Quirrel.Dedup
