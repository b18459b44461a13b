import Quirrel.Dedup.Observed
import Quirrel.Dedup.Termination

set_option autoImplicit false

/-!
# What the traversal keeps

`Unambiguous` says of an object graph what `IsBinaryEqual` does not compare. In such a graph every
write, every release and every store to a cache keeps the invariant `Inv`: only references to
containers change, the containers in the caches are as they were, only containers with a twin are
freed, nothing that is left refers to them, and all reads are as before.
-/

namespace Quirrel.Dedup

open Quirrel.Lib

/-! ## Twins -/

/-- The table or array that a slot belongs to. -/
def Slot.owner : Slot → Option SQObject
  | .root => none
  | .nodeVal t _ => some (.table t)
  | .element a _ => some (.array a)

/-- What the traversal comes to: through values, not through keys, delegates or weak references. -/
inductive Heap.Traversed (H : Heap) : SQObject → Prop
  | slot {slot : Slot} {w : SQObjectPtr} (howner : ∀ c, slot.owner = some c → Traversed H c)
      (hs : H.HasSlot slot) (hread : H.read slot = some w) : Traversed H w.obj

/-- A slot that the traversal comes to. -/
def Heap.TraversedSlot (H : Heap) (slot : Slot) : Prop :=
  H.HasSlot slot ∧ ∀ c, slot.owner = some c → H.Traversed c

/-- A table that `shrink` puts into the cache. -/
structure TableObject.Simple (T : TableObject) : Prop where
  items : T.table.usednodes ≤ cacheItemsLimit
  keys : ∀ i key, (T.table.nodes i).key = some key → key.isString = true
  values : ∀ i, (T.table.nodes i).key ≠ none → (T.table.nodes i).val.obj.isSimple = true

/-- An array that `shrink` puts into the cache. -/
structure SimpleArray (values : List SQObjectPtr) : Prop where
  items : values.length ≤ cacheItemsLimit
  values : ∀ w ∈ values, w.obj.isSimple = true

/-- The same slots in the same nodes, and simple ones. -/
structure TableObject.SameEntries (T O : TableObject) : Prop where
  simple : O.Simple
  usednodes : O.table.usednodes = T.table.usednodes
  classTypeId : O.table.classTypeId = T.table.classTypeId
  keys : ∀ i, (T.table.nodes i).key = (O.table.nodes i).key
  values : ∀ i, (T.table.nodes i).key ≠ none → (T.table.nodes i).val = (O.table.nodes i).val

/-- Two containers that the traversal comes to have the same entries. -/
def Heap.HasTwin (H : Heap) : SQObject → Prop
  | .table t => ∃ o T O, o ≠ t ∧ H.Traversed (.table t) ∧ H.Traversed (.table o) ∧
      H.tables[t]? = some T ∧ H.tables[o]? = some O ∧ T.SameEntries O
  | .array a => ∃ o values, o ≠ a ∧ H.Traversed (.array a) ∧ H.Traversed (.array o) ∧
      H.arrays[a]? = some values ∧ H.arrays[o]? = some values ∧ SimpleArray values
  | _ => False

/-- The memory of two tables belongs to one place of the cache. -/
def Memory.Collide (M : Memory) (t o : Nat) (T O : TableObject) : Prop :=
  cacheIndex (M.tableWords t T) = cacheIndex (M.tableWords o O)

/-- Where two tables belong to one place of the cache and agree in the number of slots and in the class
type id, so do the sizes of the node arrays, whatever the values of the first are by then; and where
they agree in the slots, so do the delegates. -/
structure Heap.Unambiguous (M : Memory) (H : Heap) : Prop where
  sizes : ∀ t o T O T', H.Traversed (.table t) → H.Traversed (.table o) → H.tables[t]? = some T →
    H.tables[o]? = some O → O.Simple → T'.withoutValues = T.withoutValues → M.Collide t o T' O →
    O.table.usednodes = T.table.usednodes → O.table.classTypeId = T.table.classTypeId →
    O.table.usednodes ≠ 0 → O.table.size = T.table.size
  delegates : ∀ t o T O, H.Traversed (.table t) → H.Traversed (.table o) → H.tables[t]? = some T →
    H.tables[o]? = some O → M.Collide t o T O → T.SameEntries O → O.delegate = T.delegate

/-- The keys of a table are in its node array, and in a table without slots there are none. -/
def Heap.KeysInside (H : Heap) : Prop :=
  ∀ T ∈ H.tables, (∀ i, (T.table.nodes i).key ≠ none → i < T.table.size) ∧
    (T.table.usednodes = 0 → ∀ i, (T.table.nodes i).key = none)

theorem SQObject.not_isContainer_of_isSimple {obj : SQObject} (h : obj.isSimple = true) :
    obj.isContainer = false := by
  cases obj with
  | table t => cases h
  | array a => cases h
  | _ => rfl

theorem SQObject.not_isContainer_of_isString {obj : SQObject} (h : obj.isString = true) :
    obj.isContainer = false := by
  cases obj with
  | string addr => rfl
  | _ => cases h

/-- The slots of a table with the same entries are simple as well. -/
theorem TableObject.SameEntries.values_isSimple {T O : TableObject} (h : T.SameEntries O) {i : Nat}
    (hkey : (T.table.nodes i).key ≠ none) : (T.table.nodes i).val.obj.isSimple = true := by
  rw [h.values i hkey]
  exact h.simple.values i (h.keys i ▸ hkey)

/-- A table is given by its values and the rest. -/
theorem TableObject.ext_values {T O : TableObject} (h : T.withoutValues = O.withoutValues)
    (hvalues : ∀ i, (T.table.nodes i).val = (O.table.nodes i).val) : T = O := by
  obtain ⟨⟨ff, nodes, n, used, id, rec⟩, d⟩ := T
  obtain ⟨⟨ff', nodes', n', used', id', rec'⟩, d'⟩ := O
  simp only [withoutValues, mk.injEq, Table.SQTable.mk.injEq] at h
  obtain ⟨⟨rfl, hnodes, rfl, rfl, rfl, rfl⟩, rfl⟩ := h
  have heq : nodes = nodes' := by
    funext i
    have hi := congrFun hnodes i
    simp only [Table.HashNode.mk.injEq, true_and] at hi
    have hv : (nodes i).val = (nodes' i).val := hvalues i
    calc nodes i = ⟨(nodes i).val, (nodes i).key, (nodes i).next⟩ := rfl
      _ = ⟨(nodes' i).val, (nodes' i).key, (nodes' i).next⟩ := by rw [hv, hi.1, hi.2]
  rw [heq]

/-! ## The invariant -/

/-- A slot refers to the object. -/
def State.InSlot (H : Heap) (s : State) (obj : SQObject) : Prop :=
  ∃ slot flag, H.HasSlot slot ∧ s.heap.read slot = some ⟨obj, flag⟩

/-- The state of the traversal of the graph `H`. -/
structure Inv (hashObj : SQObject → Nat) (M : Memory) (H : Heap) (s : State) : Prop where
  shape : s.heap.shape = H.shape
  slots : ∀ slot w, s.heap.read slot = some w → H.read slot = some w ∨
    ∃ w₀, H.read slot = some w₀ ∧ H.HasSlot slot ∧ w₀.obj.isContainer = true ∧
      w.obj.isContainer = true ∧ H.Traversed w.obj
  reads : ∀ freed, SameReads hashObj freed H s.heap
  tableCache : ∀ index, s.tableCache index = .null ∨ ∃ o O, s.tableCache index = .table o ∧
    H.tables[o]? = some O ∧ O.Simple ∧ index = cacheIndex (M.tableWords o O) ∧
    H.Traversed (.table o) ∧ s.InSlot H (.table o)
  arrayCache : ∀ index, s.arrayCache index = .null ∨ ∃ o values, s.arrayCache index = .array o ∧
    H.arrays[o]? = some values ∧ SimpleArray values ∧ index = cacheIndex (M.arrayWords o values) ∧
    H.Traversed (.array o) ∧ s.InSlot H (.array o)
  freed : ∀ x ∈ s.freed, H.HasTwin x ∧ s.refers x = false
  asked : ∀ q ∈ s.asked, comparesNodes q.thisId q.otherId q.this q.other = true →
    q.other.table.size = q.this.table.size

variable {hashObj : SQObject → Nat} {M : Memory} {H : Heap} {s : State}

/-- The tables as they were, up to the values. -/
theorem Inv.table {t : Nat} {T : TableObject} (h : Inv hashObj M H s)
    (hT : s.heap.tables[t]? = some T) :
    ∃ T₀, H.tables[t]? = some T₀ ∧ T.withoutValues = T₀.withoutValues := by
  have hshape : (s.heap.tables.map TableObject.withoutValues)[t]?
      = (H.tables.map TableObject.withoutValues)[t]? :=
    congrArg (fun l : List TableObject × List Nat => l.1[t]?) h.shape
  rw [List.getElem?_map, List.getElem?_map, hT, Option.map_some] at hshape
  obtain ⟨T₀, hT₀, heq⟩ := Option.map_eq_some_iff.mp hshape.symm
  exact ⟨T₀, hT₀, heq.symm⟩

/-- The keys are where they were. -/
theorem Inv.keysInside (h : Inv hashObj M H s) (hkeys : H.KeysInside) : s.heap.KeysInside := by
  intro T hT
  obtain ⟨t, ht⟩ := List.mem_iff_getElem?.mp hT
  obtain ⟨T₀, hT₀, hframe⟩ := h.table ht
  have hkey := fun i => congrArg (fun X : TableObject => (X.table.nodes i).key) hframe
  have hsize := congrArg (fun X : TableObject => X.table.size) hframe
  have hused := congrArg (fun X : TableObject => X.table.usednodes) hframe
  obtain ⟨hin, hnone⟩ := hkeys T₀ (List.mem_of_getElem? hT₀)
  constructor
  · intro i hi
    exact Nat.lt_of_lt_of_eq (hin i fun hno => hi ((hkey i).trans hno)) hsize.symm
  · intro hzero i
    exact (hkey i).trans (hnone (hused.symm.trans hzero) i)

/-- A table is as it was unless it has a container as a value, before and now. -/
theorem Inv.table_eq {t : Nat} {T T₀ : TableObject} (h : Inv hashObj M H s)
    (hT : s.heap.tables[t]? = some T) (hT₀ : H.tables[t]? = some T₀)
    (hsimple : ∀ i, (T.table.nodes i).key ≠ none → (T.table.nodes i).val.obj.isContainer = true →
      (T₀.table.nodes i).val.obj.isContainer = false) : T = T₀ := by
  obtain ⟨T', hT', hframe⟩ := h.table hT
  obtain rfl := Option.some.inj (hT'.symm.trans hT₀)
  refine TableObject.ext_values hframe fun i => ?_
  have hread : s.heap.read (.nodeVal t i) = some (T.table.nodes i).val := congrArg (Option.map _) hT
  have hread₀ : H.read (.nodeVal t i) = some (T'.table.nodes i).val := congrArg (Option.map _) hT₀
  rcases h.slots _ _ hread with hsame | ⟨w₀, hw₀, hs, hc₀, hc, -⟩
  · exact Option.some.inj (hsame.symm.trans hread₀)
  · obtain rfl := Option.some.inj (hw₀.symm.trans hread₀)
    obtain ⟨X, hX, hkey⟩ := hs
    simp only [Heap.shape, List.getElem?_map, hT₀, Option.map_some, Option.some.injEq] at hX
    obtain rfl := hX
    have hkeys := congrArg (fun X : TableObject => (X.table.nodes i).key) hframe
    have hno := hsimple i (fun hnone => hkey (hkeys.symm.trans hnone)) hc
    rw [hc₀] at hno
    cases hno

/-- A simple table is as it was. -/
theorem Inv.table_of_simple {o : Nat} {O : TableObject} (h : Inv hashObj M H s)
    (hO : H.tables[o]? = some O) (hvalues : ∀ i, (O.table.nodes i).key ≠ none →
      (O.table.nodes i).val.obj.isSimple = true) : s.heap.tables[o]? = some O := by
  have hlt : o < s.heap.tables.length := by
    have hlen := congrArg (fun l : List TableObject × List Nat => l.1.length) h.shape
    simp only [Heap.shape, List.length_map] at hlen
    rw [hlen]
    exact (List.getElem?_eq_some_iff.mp hO).1
  have hO' := List.getElem?_eq_getElem hlt
  obtain ⟨O₀, hO₀, hframe⟩ := h.table hO'
  obtain rfl := Option.some.inj (hO₀.symm.trans hO)
  rw [hO', h.table_eq hO' hO fun i hkey _ => ?_]
  have hkeys := congrArg (fun X : TableObject => (X.table.nodes i).key) hframe
  exact SQObject.not_isContainer_of_isSimple (hvalues i fun hnone => hkey (hkeys.trans hnone))

/-- The arrays are those of the graph. -/
theorem Inv.array {a : Nat} {values : List SQObjectPtr} (h : Inv hashObj M H s)
    (ha : s.heap.arrays[a]? = some values) : ∃ values₀, H.arrays[a]? = some values₀ := by
  have hlen := congrArg (fun l : List TableObject × List Nat => l.2.length) h.shape
  simp only [Heap.shape, List.length_map] at hlen
  have hlt : a < H.arrays.length := hlen ▸ (List.getElem?_eq_some_iff.mp ha).1
  exact ⟨_, List.getElem?_eq_getElem hlt⟩

/-- An array is as it was unless it has a container as a value, before and now. -/
theorem Inv.array_eq {a : Nat} {values values₀ : List SQObjectPtr} (h : Inv hashObj M H s)
    (ha : s.heap.arrays[a]? = some values) (ha₀ : H.arrays[a]? = some values₀)
    (hsimple : ∀ w ∈ values, ∀ w₀ ∈ values₀, w.obj.isContainer = true →
      w₀.obj.isContainer = false) : values = values₀ := by
  have hlen : values.length = values₀.length := by
    have hshape : (s.heap.arrays.map List.length)[a]? = (H.arrays.map List.length)[a]? :=
      congrArg (fun l : List TableObject × List Nat => l.2[a]?) h.shape
    rw [List.getElem?_map, List.getElem?_map, ha, ha₀] at hshape
    exact Option.some.inj hshape
  refine List.ext_getElem hlen fun i hi hi₀ => ?_
  have hread : s.heap.read (.element a i) = some values[i] := by
    simp only [Heap.read, ha, Option.bind_some]
    exact List.getElem?_eq_getElem hi
  have hread₀ : H.read (.element a i) = some values₀[i] := by
    simp only [Heap.read, ha₀, Option.bind_some]
    exact List.getElem?_eq_getElem hi₀
  rcases h.slots _ _ hread with hsame | ⟨w₀, hw₀, -, hc₀, hc, -⟩
  · exact Option.some.inj (hsame.symm.trans hread₀)
  · obtain rfl := Option.some.inj (hw₀.symm.trans hread₀)
    have hno := hsimple _ (List.getElem_mem hi) _ (List.getElem_mem hi₀) hc
    rw [hc₀] at hno
    cases hno

/-- A simple array is as it was. -/
theorem Inv.array_of_simple {a : Nat} {values : List SQObjectPtr} (h : Inv hashObj M H s)
    (ha : H.arrays[a]? = some values) (hvalues : ∀ w ∈ values, w.obj.isSimple = true) :
    s.heap.arrays[a]? = some values := by
  have hlt : a < s.heap.arrays.length := by
    have hlen := congrArg (fun l : List TableObject × List Nat => l.2.length) h.shape
    simp only [Heap.shape, List.length_map] at hlen
    rw [hlen]
    exact (List.getElem?_eq_some_iff.mp ha).1
  have ha' := List.getElem?_eq_getElem hlt
  rw [ha', h.array_eq ha' ha fun w _ w₀ hw₀ _ =>
    SQObject.not_isContainer_of_isSimple (hvalues w₀ hw₀)]

/-- What a slot of the traversal refers to is what the traversal comes to. -/
theorem Inv.traversed {slot : Slot} {w : SQObjectPtr} (h : Inv hashObj M H s)
    (hs : H.TraversedSlot slot) (hread : s.heap.read slot = some w) : H.Traversed w.obj := by
  rcases h.slots slot w hread with hsame | ⟨-, -, -, -, -, htraversed⟩
  · exact .slot hs.2 hs.1 hsame
  · exact htraversed

/-! ## References and releases -/

theorem State.refers_of_child {c x : SQObject} (hc : c ∈ s.heap.containers) (hlive : c ∉ s.freed)
    (hx : x ∈ s.heap.children c) : s.refers x = true := by
  simp only [refers, Bool.or_eq_true, List.any_eq_true, Bool.and_eq_true, decide_eq_true_eq]
  exact .inr ⟨c, hc, hlive, hx⟩

theorem Heap.table_mem_containers {t : Nat} {T : TableObject} (hT : H.tables[t]? = some T) :
    .table t ∈ H.containers := by
  have hlt := (List.getElem?_eq_some_iff.mp hT).1
  exact List.mem_append_left _ (List.mem_map_of_mem (List.mem_range.mpr hlt))

theorem Heap.array_mem_containers {a : Nat} {values : List SQObjectPtr}
    (ha : H.arrays[a]? = some values) : .array a ∈ H.containers := by
  have hlt := (List.getElem?_eq_some_iff.mp ha).1
  exact List.mem_append_right _ (List.mem_map_of_mem (List.mem_range.mpr hlt))

/-- A used node refers to its key and to its value. -/
theorem mem_nodeChildren {n : Node} {x : SQObject} :
    x ∈ nodeChildren n ↔ n.key = some x ∨ n.key ≠ none ∧ x = n.val.obj := by
  unfold nodeChildren
  cases n.key with
  | none => simp
  | some key => simp [eq_comm (a := key)]

/-- A table refers to what its nodes refer to and to its delegate. -/
theorem TableObject.mem_children {T : TableObject} {x : SQObject} :
    x ∈ T.children ↔ (∃ i < T.table.size, x ∈ nodeChildren (T.table.nodes i)) ∨
      ∃ d, T.delegate = some d ∧ .table d = x := by
  simp only [children, List.mem_append, List.mem_flatMap, List.mem_range, Option.mem_toList,
    Option.map_eq_some_iff]

/-- What is freed does not count. -/
theorem State.refers_of_freed {x y : SQObject}
    (h : State.refers { s with freed := x :: s.freed } y = true) : s.refers y = true := by
  simp only [refers, Bool.or_eq_true, List.any_eq_true, Bool.and_eq_true, decide_eq_true_eq,
    List.mem_cons, not_or] at h ⊢
  exact h.imp_right fun ⟨c, hc, hlive, hy⟩ => ⟨c, hc, hlive.2, hy⟩

/-- A write makes no container. -/
theorem Heap.containers_write (H : Heap) (slot : Slot) (v : SQObjectPtr) :
    (H.write slot v).containers = H.containers := by
  cases slot <;> simp only [containers, write, List.length_modify]

/-- A container refers to what it referred to, and to what has been written to one of its slots. -/
theorem Heap.mem_children_write {slot : Slot} {v : SQObjectPtr} {c x : SQObject}
    (h : x ∈ (H.write slot v).children c) : x ∈ H.children c ∨ x = v.obj := by
  cases slot with
  | root => exact .inl h
  | nodeVal t i =>
    cases c with
    | table t' =>
      simp only [children, write, List.getElem?_modify] at h ⊢
      split at h
      case isFalse => exact .inl (by simpa using h)
      case isTrue =>
        cases hT : H.tables[t']? with
        | none => simp [hT] at h
        | some T =>
          simp only [hT, Option.map_eq_map, Option.map_some, Option.getD_some] at h ⊢
          rcases TableObject.mem_children.mp h with ⟨j, hj, hnode⟩ | hd
          · -- the keys are as before, and of the values only that of node `i` is new
            have hkey : ((T.table.setVal i v).nodes j).key = (T.table.nodes j).key :=
              congrFun (Table.SQTable.keyAt_setVal T.table i v) j
            rcases mem_nodeChildren.mp hnode with hx | ⟨hused, hx⟩
            · exact .inl (TableObject.mem_children.mpr
                (.inl ⟨j, hj, mem_nodeChildren.mpr (.inl (hkey.symm.trans hx))⟩))
            · have hval : ((T.table.setVal i v).nodes j).val
                  = Function.update T.table.valAt i v j :=
                congrFun (Table.SQTable.valAt_setVal T.table i v) j
              rw [hval] at hx
              by_cases hji : j = i
              · subst hji
                rw [Function.update_self] at hx
                exact .inr hx
              · rw [Function.update_of_ne hji] at hx
                exact .inl (TableObject.mem_children.mpr
                  (.inl ⟨j, hj, mem_nodeChildren.mpr (.inr ⟨hkey ▸ hused, hx⟩)⟩))
          · exact .inl (TableObject.mem_children.mpr (.inr hd))
    | _ => exact .inl h
  | element a i =>
    cases c with
    | array a' =>
      simp only [children, write, List.getElem?_modify] at h ⊢
      split at h
      case isFalse => exact .inl (by simpa using h)
      case isTrue =>
        cases ha : H.arrays[a']? with
        | none => simp [ha] at h
        | some values =>
          simp only [ha, Option.map_eq_map, Option.map_some, Option.getD_some] at h ⊢
          obtain ⟨w, hw, rfl⟩ := List.mem_map.mp h
          rcases List.mem_or_eq_of_mem_set hw with hw | rfl
          · exact .inl (List.mem_map_of_mem hw)
          · exact .inr rfl
    | _ => exact .inl h

/-- A write makes no reference but the one that is written. -/
theorem State.refers_of_write {slot : Slot} {v : SQObjectPtr} {x : SQObject}
    (h : (s.write slot v).refers x = true) : s.refers x = true ∨ x = v.obj := by
  have hroot : (s.write slot v).heap.root.obj = x → s.heap.root.obj = x ∨ x = v.obj := by
    cases slot with
    | root => exact fun hx => .inr hx.symm
    | _ => exact .inl
  have hheld : (s.write slot v).heap.held = s.heap.held := by cases slot <;> rfl
  have hcontainers : (s.write slot v).heap.containers = s.heap.containers :=
    s.heap.containers_write slot v
  simp only [refers, Bool.or_eq_true, List.any_eq_true, Bool.and_eq_true, decide_eq_true_eq,
    hheld, hcontainers] at h ⊢
  rcases h with (hx | hx) | ⟨c, hc, hlive, hx⟩
  · exact (hroot hx).imp_left fun hx => .inl (.inl hx)
  · exact .inl (.inl (.inr hx))
  · exact (Heap.mem_children_write hx).imp_left fun hx => .inr ⟨c, hc, hlive, hx⟩

/-- A container in a slot of the graph is referred to: only simple containers are freed. -/
theorem Inv.refers_of_slot (h : Inv hashObj M H s) (hkeys : H.KeysInside) {x : SQObject}
    (hslot : s.InSlot H x) (hx : x.isContainer = true) : s.refers x = true := by
  obtain ⟨slot, flag, hs, hread⟩ := hslot
  cases slot with
  | root =>
    have hroot : s.heap.root.obj = x := congrArg SQObjectPtr.obj (Option.some.inj hread)
    simp only [State.refers, hroot, decide_true, Bool.true_or]
  | nodeVal t i =>
    obtain ⟨T, hT, hval⟩ := Option.map_eq_some_iff.mp hread
    obtain ⟨T₀, hT₀, hframe⟩ := h.table hT
    have hkeys₀ := congrArg (fun X : TableObject => (X.table.nodes i).key) hframe
    have hkey : (T.table.nodes i).key ≠ none := by
      obtain ⟨X, hX, hkey⟩ := hs
      simp only [Heap.shape, List.getElem?_map, hT₀, Option.map_some, Option.some.injEq] at hX
      obtain rfl := hX
      exact fun hnone => hkey (hkeys₀.symm.trans hnone)
    have hi : i < T.table.size := (h.keysInside hkeys T (List.mem_of_getElem? hT)).1 i hkey
    refine State.refers_of_child (Heap.table_mem_containers hT) (fun hfreed => ?_) ?_
    · -- a freed table is simple, this one has a container as a value
      obtain ⟨o, T', O, -, -, -, hT', -, hentries⟩ := (h.freed _ hfreed).1
      have hsame := h.table_of_simple hT' fun i hkey => hentries.values_isSimple hkey
      obtain rfl := Option.some.inj (hsame.symm.trans hT)
      have hsimple := SQObject.not_isContainer_of_isSimple (hentries.values_isSimple hkey)
      rw [hval, hx] at hsimple
      cases hsimple
    · simp only [Heap.children, hT, Option.map_some, Option.getD_some]
      refine TableObject.mem_children.mpr (.inl ⟨i, hi, mem_nodeChildren.mpr (.inr ⟨hkey, ?_⟩)⟩)
      rw [hval]
  | element a i =>
    obtain ⟨values, hvalues, hval⟩ := Option.bind_eq_some_iff.mp hread
    refine State.refers_of_child (Heap.array_mem_containers hvalues) (fun hfreed => ?_) ?_
    · obtain ⟨o, values', -, -, -, ha, -, hsimple⟩ := (h.freed _ hfreed).1
      have hsame := h.array_of_simple ha hsimple.values
      obtain rfl := Option.some.inj (hsame.symm.trans hvalues)
      have hno := SQObject.not_isContainer_of_isSimple
        (hsimple.values _ (List.mem_of_getElem? hval))
      rw [hx] at hno
      cases hno
    · simp only [Heap.children, hvalues, Option.getD_some]
      exact List.mem_map.mpr ⟨_, List.mem_of_getElem? hval, rfl⟩

/-- A container with a twin is freed alone when the other references that it holds are not the last. -/
theorem Inv.release (h : Inv hashObj M H s) {x : SQObject}
    (htwin : H.HasTwin x) (hchildren : ∀ y ∈ s.heap.children x, y.isContainer = true →
      State.refers { s with freed := x :: s.freed } y = true) (depth : Nat) :
    Inv hashObj M H (Dedup.release depth x s) := by
  cases depth with
  | zero => exact h
  | succ depth =>
    rw [Dedup.release]
    split
    case isFalse => exact h
    case isTrue hlast =>
      simp only [Bool.and_eq_true, Bool.not_eq_true', decide_eq_true_eq] at hlast
      have hall : ∀ l ⊆ s.heap.children x,
          l.foldl (fun s child => Dedup.release depth child s) { s with freed := x :: s.freed }
            = { s with freed := x :: s.freed } := by
        intro l hl
        induction l with
        | nil => rfl
        | cons y l ih =>
          have hstay : Dedup.release depth y { s with freed := x :: s.freed }
              = { s with freed := x :: s.freed } := by
            cases depth with
            | zero => rfl
            | succ depth =>
              rw [Dedup.release, if_neg]
              intro hy
              simp only [Bool.and_eq_true, Bool.not_eq_true', decide_eq_true_eq] at hy
              have hrefers := hchildren y (hl List.mem_cons_self) hy.1.1
              rw [hy.2] at hrefers
              cases hrefers
          rw [List.foldl_cons, hstay]
          exact ih (List.subset_of_cons_subset hl)
      rw [hall _ (List.Subset.refl _)]
      refine { h with freed := ?_ }
      intro y hy
      rcases List.mem_cons.mp hy with rfl | hy
      · exact ⟨htwin, Bool.eq_false_iff.mpr fun hrefers =>
          Bool.eq_false_iff.mp hlast.2 (State.refers_of_freed hrefers)⟩
      · exact ⟨(h.freed y hy).1, Bool.eq_false_iff.mpr fun hrefers =>
          Bool.eq_false_iff.mp (h.freed y hy).2 (State.refers_of_freed hrefers)⟩

/-! ## Writes and stores to the caches -/

/-- A reference to a container takes the place of one to an alike container. -/
theorem Inv.write (h : Inv hashObj M H s) {slot : Slot} {v w : SQObjectPtr} (hs : H.HasSlot slot)
    (hread : s.heap.read slot = some w) (hv : v.obj.isContainer = true)
    (hw : w.obj.isContainer = true) (htraversed : H.Traversed v.obj)
    (halike : ∀ freed, (view hashObj s.heap freed).Alike v.obj w.obj) (hlive : v.obj ∉ s.freed)
    (hcached : v.obj = w.obj ∨
      (∀ index, s.tableCache index ≠ w.obj) ∧ ∀ index, s.arrayCache index ≠ w.obj) :
    Inv hashObj M H (s.write slot v) := by
  have hother : ∀ slot', slot' ≠ slot → (s.write slot v).heap.read slot' = s.heap.read slot' :=
    fun slot' hne => (Heap.read_write ..).trans (if_neg hne)
  have hself : (s.write slot v).heap.read slot = some v := Heap.read_write_self hread v
  have hinSlot : ∀ x, (v.obj = w.obj ∨ x ≠ w.obj) → s.InSlot H x → (s.write slot v).InSlot H x := by
    rintro x hx ⟨slot', flag, hs', hread'⟩
    by_cases hslot : slot' = slot
    · subst hslot
      obtain rfl := Option.some.inj (hread.symm.trans hread')
      rcases hx with hsame | hne
      · exact ⟨slot', v.immutable, hs',
          hself.trans (congrArg (fun obj => some (SQObjectPtr.mk obj v.immutable)) hsame)⟩
      · exact absurd rfl hne
    · exact ⟨slot', flag, hs', (hother slot' hslot).trans hread'⟩
  constructor
  case shape => exact (s.heap.shape_write slot v).trans h.shape
  case slots =>
    intro slot' w' hread'
    by_cases hslot : slot' = slot
    · subst hslot
      obtain rfl := Option.some.inj (hself.symm.trans hread')
      rcases h.slots slot' w hread with hsame | ⟨w₀, hw₀, -, hc₀, -, -⟩
      · exact .inr ⟨w, hsame, hs, hw, hv, htraversed⟩
      · exact .inr ⟨w₀, hw₀, hs, hc₀, hv, htraversed⟩
    · exact h.slots slot' w' ((hother slot' hslot).symm.trans hread')
  case reads =>
    exact fun freed => (h.reads freed).trans (Heap.write_sameReads hread hv hw (halike freed))
  case tableCache =>
    -- a cached container keeps the slot it was cached from, unless that slot is the written one
    intro index
    rcases h.tableCache index with hnull | ⟨o, O, hc, hO, hsimple, hindex, ho, hslot⟩
    · exact .inl hnull
    · refine .inr ⟨o, O, hc, hO, hsimple, hindex, ho, hinSlot _ ?_ hslot⟩
      exact hcached.imp id fun hno heq => hno.1 index (hc.trans heq)
  case arrayCache =>
    intro index
    rcases h.arrayCache index with hnull | ⟨o, values, hc, ha, hsimple, hindex, ho, hslot⟩
    · exact .inl hnull
    · refine .inr ⟨o, values, hc, ha, hsimple, hindex, ho, hinSlot _ ?_ hslot⟩
      exact hcached.imp id fun hno heq => hno.2 index (hc.trans heq)
  case freed =>
    intro x hx
    obtain ⟨htwin, hno⟩ := h.freed x hx
    refine ⟨htwin, Bool.eq_false_iff.mpr fun hrefers => ?_⟩
    rcases State.refers_of_write hrefers with hyes | rfl
    · exact Bool.eq_false_iff.mp hno hyes
    · exact hlive hx
  case asked => exact h.asked

/-- What a slot of the graph refers to is there. -/
theorem Inv.not_freed (h : Inv hashObj M H s) (hkeys : H.KeysInside) {x : SQObject}
    (hslot : s.InSlot H x) (hx : x.isContainer = true) : x ∉ s.freed := fun hfreed =>
  Bool.eq_false_iff.mp (h.freed x hfreed).2 (h.refers_of_slot hkeys hslot hx)

/-- A flag is set. -/
theorem Inv.setImmutable (hkeys : H.KeysInside) (h : Inv hashObj M H s) {slot : Slot}
    {obj : SQObject} {flag : Bool}
    (hs : H.TraversedSlot slot) (hread : s.heap.read slot = some ⟨obj, flag⟩)
    (hobj : obj.isContainer = true) : Inv hashObj M H (s.write slot ⟨obj, true⟩) := by
  have htraversed : H.Traversed obj := h.traversed hs hread
  exact h.write hs.1 hread hobj hobj htraversed (fun _ => View.Alike.refl _ _)
    (h.not_freed hkeys ⟨slot, flag, hs.1, hread⟩ hobj) (.inl rfl)

/-- A simple table is cached at the place for its memory. -/
theorem Inv.cacheTable (h : Inv hashObj M H s) {slot : Slot} {t : Nat} {T : TableObject}
    {flag : Bool} (hs : H.TraversedSlot slot)
    (hread : s.heap.read slot = some ⟨.table t, flag⟩) (hT : H.tables[t]? = some T)
    (hsimple : T.Simple) :
    Inv hashObj M H
      { s with
        tableCache := Function.update s.tableCache (cacheIndex (M.tableWords t T)) (.table t) } := by
  refine { h with tableCache := fun index => ?_ }
  by_cases hindex : index = cacheIndex (M.tableWords t T)
  · refine .inr ⟨t, T, ?_, hT, hsimple, hindex, h.traversed hs hread, slot, flag, hs.1, hread⟩
    simp only [hindex, Function.update_self]
  · simp only [Function.update_of_ne hindex]
    exact h.tableCache index

/-- A simple array is cached at the place for its memory. -/
theorem Inv.cacheArray (h : Inv hashObj M H s) {slot : Slot} {a : Nat} {values : List SQObjectPtr}
    {flag : Bool} (hs : H.TraversedSlot slot)
    (hread : s.heap.read slot = some ⟨.array a, flag⟩) (ha : H.arrays[a]? = some values)
    (hsimple : SimpleArray values) :
    Inv hashObj M H
      { s with
        arrayCache := Function.update s.arrayCache (cacheIndex (M.arrayWords a values)) (.array a) } := by
  refine { h with arrayCache := fun index => ?_ }
  by_cases hindex : index = cacheIndex (M.arrayWords a values)
  · refine .inr ⟨a, values, ?_, ha, hsimple, hindex, h.traversed hs hread, slot, flag, hs.1, hread⟩
    simp only [hindex, Function.update_self]
  · simp only [Function.update_of_ne hindex]
    exact h.arrayCache index

/-! ## A container that is found in a cache -/

theorem release_of_refers {x : SQObject} (h : s.refers x = true) (depth : Nat) :
    release depth x s = s := by
  cases depth with
  | zero => rfl
  | succ depth => rw [release, if_neg (by simp [h])]

/-- Where the node arrays are compared they have one size. -/
theorem Inv.size_eq (hH : H.Unambiguous M) (h : Inv hashObj M H s) {t o : Nat} {T O : TableObject}
    (ht : H.Traversed (.table t)) (ho : H.Traversed (.table o)) (hT : s.heap.tables[t]? = some T)
    (hO : H.tables[o]? = some O) (hsimple : O.Simple) (hcollide : M.Collide t o T O)
    (hcompares : comparesNodes t o T O = true) :
    O.table.size = T.table.size := by
  obtain ⟨T₀, hT₀, hframe⟩ := h.table hT
  have hused := congrArg (fun X : TableObject => X.table.usednodes) hframe
  have hid := congrArg (fun X : TableObject => X.table.classTypeId) hframe
  have hsize := congrArg (fun X : TableObject => X.table.size) hframe
  simp only [comparesNodes, Bool.and_eq_true, decide_eq_true_eq] at hcompares
  obtain ⟨⟨⟨hused', hid'⟩, -⟩, hzero⟩ := hcompares
  have hsame := hH.sizes t o T₀ O T ht ho hT₀ hO hsimple hframe hcollide (hused'.trans hused)
    (hid'.trans hid) hzero
  exact hsame.trans hsize.symm

/-- A question to `IsBinaryEqual` about the cached table. -/
theorem Inv.ask (hH : H.Unambiguous M) (h : Inv hashObj M H s) {t o index : Nat} {T O : TableObject}
    (ht : H.Traversed (.table t)) (hT : s.heap.tables[t]? = some T)
    (hO : s.heap.tables[o]? = some O) (hcache : s.tableCache index = .table o)
    (hindex : index = cacheIndex (M.tableWords t T)) :
    Inv hashObj M H { s with asked := s.asked ++ [⟨t, o, T, O⟩] } := by
  obtain hnull | ⟨o', O₀, hc, hO₀, hsimple, hindex', ho, -⟩ := h.tableCache index
  · cases hnull.symm.trans hcache
  obtain rfl : o' = o := SQObject.table.inj (hc.symm.trans hcache)
  obtain rfl : O₀ = O := Option.some.inj ((h.table_of_simple hO₀ hsimple.values).symm.trans hO)
  have hcollide : M.Collide t o' T O₀ := hindex.symm.trans hindex'
  refine { h with asked := fun q hq hcompares => ?_ }
  rcases List.mem_append.mp hq with hq | hq
  · exact h.asked q hq hcompares
  · obtain rfl := List.mem_singleton.mp hq
    exact h.size_eq hH ht ho hT hO₀ hsimple hcollide hcompares

/-- A table that is found equal to a simple one has the same entries. -/
theorem sameEntries_of_isBinaryEqual {t o : Nat} {T O : TableObject} (hot : o ≠ t)
    (hsimple : O.Simple) (hT : (∀ i, (T.table.nodes i).key ≠ none → i < T.table.size) ∧
      (T.table.usednodes = 0 → ∀ i, (T.table.nodes i).key = none))
    (hO : (∀ i, (O.table.nodes i).key ≠ none → i < O.table.size) ∧
      (O.table.usednodes = 0 → ∀ i, (O.table.nodes i).key = none))
    (hsize : comparesNodes t o T O = true → O.table.size = T.table.size)
    (h : isBinaryEqual M t o T O = true) : T.SameEntries O := by
  unfold isBinaryEqual at h
  split at h
  case isTrue => cases h
  case isFalse hsame =>
    rw [not_or, not_not, not_not] at hsame
    split at h
    case isTrue hzero =>
      have hnone := hT.2 (hsame.1.symm.trans hzero)
      exact ⟨hsimple, hsame.1, hsame.2, fun i => (hnone i).trans (hO.2 hzero i).symm,
        fun i hkey => absurd (hnone i) hkey⟩
    case isFalse hzero =>
      have hsize := hsize (by
        simp only [comparesNodes, hsame.1, hsame.2, decide_true, Bool.true_and, Bool.and_eq_true,
          decide_eq_true_eq, ne_eq]
        exact ⟨hot, hsame.1 ▸ hzero⟩)
      have hnode : ∀ i < T.table.size, (T.table.nodes i).val = (O.table.nodes i).val ∧
          (T.table.nodes i).key = (O.table.nodes i).key := by
        intro i hi
        have hnode := List.all_eq_true.mp (Bool.and_eq_true_iff.mp h).2 i (List.mem_range.mpr hi)
        simp only [nodeAt, hsize, if_pos hi, sameNode, Bool.and_eq_true, decide_eq_true_eq] at hnode
        exact hnode.1.1
      refine ⟨hsimple, hsame.1, hsame.2, fun i => ?_, fun i hkey => (hnode i (hT.1 i hkey)).1⟩
      by_cases hi : i < T.table.size
      · exact (hnode i hi).2
      · rw [not_not.mp fun hkey => hi (hT.1 i hkey),
          not_not.mp fun hkey => hi (hsize ▸ hO.1 i hkey)]

/-- A cached table takes the place of one that is equal to it in its bytes. -/
theorem Inv.assignTable (hH : H.Unambiguous M) (hkeys : H.KeysInside) (h : Inv hashObj M H s)
    {slot : Slot} {t o index : Nat} {T O : TableObject} (hs : H.TraversedSlot slot)
    (hread : s.heap.read slot = some ⟨.table t, true⟩) (hT : s.heap.tables[t]? = some T)
    (hO : s.heap.tables[o]? = some O) (hcache : s.tableCache index = .table o)
    (hindex : index = cacheIndex (M.tableWords t T)) (hequal : isBinaryEqual M t o T O = true) :
    Inv hashObj M H (s.assign slot (.table o) (.table t)) := by
  obtain hnull | ⟨o', O₀, hc, hO₀, hsimple, hindex', ho, hslot⟩ := h.tableCache index
  · cases hnull.symm.trans hcache
  obtain rfl : o' = o := SQObject.table.inj (hc.symm.trans hcache)
  obtain rfl : O₀ = O := Option.some.inj ((h.table_of_simple hO₀ hsimple.values).symm.trans hO)
  have hlive := h.not_freed hkeys hslot rfl
  have ht := h.traversed hs hread
  by_cases hot : o' = t
  · -- the slot already has the cached table
    subst hot
    have hwrite := h.setImmutable hkeys hs hread rfl
    have hrefers := hwrite.refers_of_slot hkeys
      ⟨slot, true, hs.1, Heap.read_write_self hread _⟩ (x := .table o') rfl
    rw [State.assign, release_of_refers hrefers]
    exact hwrite
  · obtain ⟨T₀, hT₀, hframe⟩ := h.table hT
    have hcollide : M.Collide t o' T O₀ := hindex.symm.trans hindex'
    have hsize := h.size_eq hH ht ho hT hO₀ hsimple hcollide
    have hkeysT := h.keysInside hkeys T (List.mem_of_getElem? hT)
    have hkeysO := hkeys O₀ (List.mem_of_getElem? hO₀)
    have hentries := sameEntries_of_isBinaryEqual hot hsimple hkeysT hkeysO hsize hequal
    have hsimpleT : ∀ i, (T.table.nodes i).key ≠ none → (T.table.nodes i).val.obj.isSimple = true :=
      fun i hkey => hentries.values_isSimple hkey
    obtain rfl : T = T₀ := h.table_eq hT hT₀ fun i hkey hc => by
      rw [SQObject.not_isContainer_of_isSimple (hsimpleT i hkey)] at hc
      cases hc
    have hdelegate := hH.delegates t o' T O₀ ht ho hT₀ hO₀ hcollide hentries
    -- the place for the bytes of the replaced table has the other one, so it is not cached itself
    have hnot : ∀ index', s.tableCache index' ≠ .table t := by
      intro index' hc'
      obtain hnull | ⟨t', T', hc'', hT', -, hindex', -, -⟩ := h.tableCache index'
      · cases hnull.symm.trans hc'
      obtain rfl : t' = t := SQObject.table.inj (hc''.symm.trans hc')
      obtain rfl := Option.some.inj (hT'.symm.trans hT₀)
      rw [hindex', ← hindex, hcache] at hc'
      exact hot (SQObject.table.inj hc')
    have hnotArray : ∀ index', s.arrayCache index' ≠ .table t := by
      intro index' hc'
      obtain hnull | ⟨a, values, hc'', -⟩ := h.arrayCache index'
      · cases hnull.symm.trans hc'
      · cases hc''.symm.trans hc'
    have halike : ∀ freed, (view hashObj s.heap freed).Alike (.table o') (.table t) := fun _ =>
      have hget := get_of_isBinaryEqual hkeysT.2 hkeysO.2 hot hsize hequal
      alike_of_get hT hO hget.1 hget.2 hdelegate
    have hwrite : Inv hashObj M H (s.write slot ⟨.table o', true⟩) :=
      h.write hs.1 hread rfl rfl ho halike hlive
        (.inr ⟨hnot, hnotArray⟩)
    refine hwrite.release (x := .table t) ⟨o', T, O₀, hot, ht, ho, hT₀, hO₀, hentries⟩ ?_ _
    intro y hy hcontainer
    have hTwrite := hwrite.table_of_simple hT₀ hsimpleT
    have hOwrite := hwrite.table_of_simple hO₀ hsimple.values
    simp only [Heap.children, hTwrite, Option.map_some, Option.getD_some] at hy
    rcases TableObject.mem_children.mp hy with ⟨i, -, hnode⟩ | ⟨d, hd, rfl⟩
    · -- a simple table has no containers in its nodes
      rcases mem_nodeChildren.mp hnode with hkey | ⟨hkey, rfl⟩
      · have hstring := hsimple.keys i y ((hentries.keys i).symm.trans hkey)
        rw [SQObject.not_isContainer_of_isString hstring] at hcontainer
        cases hcontainer
      · rw [SQObject.not_isContainer_of_isSimple (hsimpleT i hkey)] at hcontainer
        cases hcontainer
    · -- the cached table has the same delegate
      refine State.refers_of_child (c := .table o') (Heap.table_mem_containers hOwrite) ?_ ?_
      · rw [List.mem_cons, SQObject.table.injEq, not_or]
        exact ⟨hot, hlive⟩
      · simp only [Heap.children]
        rw [show (s.write slot ⟨.table o', true⟩).heap.tables[o']? = some O₀ from hOwrite]
        exact TableObject.mem_children.mpr (.inr ⟨d, hdelegate.trans hd, rfl⟩)

/-- A cached array takes the place of one that is equal to it in its bytes. -/
theorem Inv.assignArray (hkeys : H.KeysInside) (h : Inv hashObj M H s) {slot : Slot}
    {a o index : Nat} {values others : List SQObjectPtr} (hs : H.TraversedSlot slot)
    (hread : s.heap.read slot = some ⟨.array a, true⟩) (ha : s.heap.arrays[a]? = some values)
    (ho : s.heap.arrays[o]? = some others) (hcache : s.arrayCache index = .array o)
    (hindex : index = cacheIndex (M.arrayWords a values))
    (hequal : arraysBinaryEqual M a o values others = true) :
    Inv hashObj M H (s.assign slot (.array o) (.array a)) := by
  obtain hnull | ⟨o', others₀, hc, ho₀, hsimple, -, htraversed, hslot⟩ := h.arrayCache index
  · cases hnull.symm.trans hcache
  obtain rfl : o' = o := SQObject.array.inj (hc.symm.trans hcache)
  obtain rfl : others₀ = others :=
    Option.some.inj ((h.array_of_simple ho₀ hsimple.values).symm.trans ho)
  have hlive := h.not_freed hkeys hslot rfl
  by_cases hoa : o' = a
  · subst hoa
    have hwrite := h.setImmutable hkeys hs hread rfl
    have hrefers := hwrite.refers_of_slot hkeys
      ⟨slot, true, hs.1, Heap.read_write_self hread _⟩ (x := .array o') rfl
    rw [State.assign, release_of_refers hrefers]
    exact hwrite
  · obtain rfl : values = others₀ :=
      values_of_arraysBinaryEqual (fun hao => absurd hao.symm hoa) hequal
    obtain ⟨values₀, ha₀⟩ := h.array ha
    obtain rfl : values = values₀ := h.array_eq ha ha₀ fun w hw _ _ hc => by
      rw [SQObject.not_isContainer_of_isSimple (hsimple.values w hw)] at hc
      cases hc
    have hnot : ∀ index', s.arrayCache index' ≠ .array a := by
      intro index' hc'
      obtain hnull | ⟨a', values', hc'', ha', -, hindex', -, -⟩ := h.arrayCache index'
      · cases hnull.symm.trans hc'
      obtain rfl : a' = a := SQObject.array.inj (hc''.symm.trans hc')
      obtain rfl := Option.some.inj (ha'.symm.trans ha₀)
      rw [hindex', ← hindex, hcache] at hc'
      exact hoa (SQObject.array.inj hc')
    have hnotTable : ∀ index', s.tableCache index' ≠ .array a := by
      intro index' hc'
      obtain hnull | ⟨t, T, hc'', -⟩ := h.tableCache index'
      · cases hnull.symm.trans hc'
      · cases hc''.symm.trans hc'
    have hwrite : Inv hashObj M H (s.write slot ⟨.array o', true⟩) :=
      h.write hs.1 hread rfl rfl htraversed (fun _ => alike_of_values ha ho) hlive
        (.inr ⟨hnotTable, hnot⟩)
    refine hwrite.release (x := .array a)
      ⟨o', values, hoa, h.traversed hs hread, htraversed, ha₀, ho₀, hsimple⟩ ?_ _
    intro y hy hcontainer
    simp only [Heap.children, hwrite.array_of_simple ha₀ hsimple.values, Option.getD_some] at hy
    obtain ⟨w, hw, rfl⟩ := List.mem_map.mp hy
    rw [SQObject.not_isContainer_of_isSimple (hsimple.values w hw)] at hcontainer
    cases hcontainer

end Quirrel.Dedup
