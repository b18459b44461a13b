import Quirrel.Dedup.Shrinker
import Quirrel.Table.FiniteMap

set_option autoImplicit false

/-!
# The traversal ends

Every nested call pushes a table or an array that is not on its stack yet, so the calls
are at most as deep as there are tables and arrays (`shrink_ends`), also in a cyclic graph.
-/

namespace Quirrel.Dedup

open Quirrel.Table (SQTable)

/-- A table with null for every value. -/
def TableObject.withoutValues (T : TableObject) : TableObject :=
  { T with
    table := { T.table with nodes := fun i => { T.table.nodes i with val := ⟨.null, false⟩ } } }

/-- A stored value is not seen without the values. -/
theorem TableObject.withoutValues_setVal (T : TableObject) (i : Nat) (v : SQObjectPtr) :
    TableObject.withoutValues { T with table := T.table.setVal i v } = T.withoutValues := by
  have hnodes : ∀ j, { (T.table.setVal i v).nodes j with val := (⟨.null, false⟩ : SQObjectPtr) }
      = { T.table.nodes j with val := ⟨.null, false⟩ } := by
    intro j
    simp only [SQTable.setVal, SQTable.setNode]
    by_cases hj : j = i
    · subst hj
      rw [Function.update_self]
    · rw [Function.update_of_ne hj]
  simp only [withoutValues, hnodes]
  rfl

namespace Heap

/-- What a write leaves as it is: of the tables all but the values, of the arrays the sizes. -/
def shape (H : Heap) : List TableObject × List Nat :=
  (H.tables.map TableObject.withoutValues, H.arrays.map List.length)

/-- A slot of a key, or of an element. -/
def HasSlot (H : Heap) : Slot → Prop
  | .root => True
  | .nodeVal t i => ∃ T, H.shape.1[t]? = some T ∧ (T.table.nodes i).key ≠ none
  | .element a i => ∃ size, H.shape.2[a]? = some size ∧ i < size

/-- A reference to an object of the heap. -/
def InRange (H : Heap) : SQObject → Prop
  | .table t => t < H.shape.1.length
  | .array a => a < H.shape.2.length
  | _ => True

/-- Every reference in the graph is to an object of the heap. -/
def Sound (H : Heap) : Prop :=
  ∀ slot w, H.HasSlot slot → H.read slot = some w → H.InRange w.obj

/-- A write keeps the shape. -/
theorem shape_write (H : Heap) (slot : Slot) (v : SQObjectPtr) :
    (H.write slot v).shape = H.shape := by
  cases slot with
  | root => rfl
  | nodeVal t i =>
    refine Prod.ext (List.ext_getElem? fun j => ?_) rfl
    simp only [shape, write, List.getElem?_map, List.getElem?_modify]
    split
    · cases H.tables[j]? with
      | none => rfl
      | some T => exact congrArg some (T.withoutValues_setVal i v)
    · cases H.tables[j]? <;> rfl
  | element a i =>
    refine Prod.ext rfl (List.ext_getElem? fun j => ?_)
    simp only [shape, write, List.getElem?_map, List.getElem?_modify]
    split
    · cases H.arrays[j]? with
      | none => rfl
      | some values => exact congrArg some (List.length_set ..)
    · cases H.arrays[j]? <;> rfl

/-- The shape has all slots. -/
theorem HasSlot.of_shape {H H' : Heap} (h : H'.shape = H.shape) {slot : Slot}
    (hs : H.HasSlot slot) : H'.HasSlot slot := by
  cases slot with
  | root => trivial
  | nodeVal t i => simpa only [HasSlot, h] using hs
  | element a i => simpa only [HasSlot, h] using hs

/-- The shape has all objects. -/
theorem InRange.of_shape {H H' : Heap} (h : H'.shape = H.shape) {obj : SQObject}
    (hr : H.InRange obj) : H'.InRange obj := by
  cases obj with
  | table t => simpa only [InRange, h] using hr
  | array a => simpa only [InRange, h] using hr
  | _ => trivial

theorem InRange.table {H : Heap} {t : Nat} (hr : H.InRange (.table t)) :
    ∃ T, H.tables[t]? = some T := by
  simp only [InRange, shape, List.length_map] at hr
  exact ⟨_, List.getElem?_eq_getElem hr⟩

theorem InRange.array {H : Heap} {a : Nat} (hr : H.InRange (.array a)) :
    ∃ values, H.arrays[a]? = some values := by
  simp only [InRange, shape, List.length_map] at hr
  exact ⟨_, List.getElem?_eq_getElem hr⟩

/-- A used node of a table is a slot. -/
theorem hasSlot_nodeVal {H : Heap} {t i : Nat} {T : TableObject} (hT : H.tables[t]? = some T)
    (hkey : (T.table.nodes i).key ≠ none) : H.HasSlot (.nodeVal t i) :=
  ⟨T.withoutValues, by simp only [shape, List.getElem?_map, hT, Option.map_some], hkey⟩

/-- An element of an array is a slot. -/
theorem hasSlot_element {H : Heap} {a i : Nat} {values : List SQObjectPtr}
    (ha : H.arrays[a]? = some values) (hi : i < values.length) : H.HasSlot (.element a i) :=
  ⟨values.length, by simp only [shape, List.getElem?_map, ha, Option.map_some], hi⟩

/-- A slot can be read. -/
theorem HasSlot.read {H : Heap} {slot : Slot} (hs : H.HasSlot slot) :
    ∃ w, H.read slot = some w := by
  cases slot with
  | root => exact ⟨_, rfl⟩
  | nodeVal t i =>
    obtain ⟨X, hX, -⟩ := hs
    simp only [shape, List.getElem?_map, Option.map_eq_some_iff] at hX
    obtain ⟨T, hT, -⟩ := hX
    exact ⟨_, congrArg (Option.map _) hT⟩
  | element a i =>
    obtain ⟨size, hsize, hlt⟩ := hs
    simp only [shape, List.getElem?_map, Option.map_eq_some_iff] at hsize
    obtain ⟨values, hvalues, rfl⟩ := hsize
    refine ⟨values[i], ?_⟩
    simp only [Heap.read, hvalues, Option.bind_some]
    exact List.getElem?_eq_getElem hlt

/-- A write changes what is read at its slot only. -/
theorem read_write (H : Heap) (slot slot' : Slot) (v : SQObjectPtr) :
    (H.write slot v).read slot' =
      if slot' = slot then (H.read slot).map fun _ => v else H.read slot' := by
  cases slot with
  | root => cases slot' <;> simp [read, write]
  | nodeVal t i =>
    cases slot' with
    | root => rfl
    | element a' i' => rfl
    | nodeVal t' i' =>
      simp only [read, write]
      by_cases ht : t = t'
      · subst ht
        rw [List.getElem?_modify_eq]
        cases H.tables[t]? with
        | none => simp
        | some T =>
          have hval : ((T.table.setVal i v).nodes i').val = Function.update T.table.valAt i v i' :=
            congrFun (SQTable.valAt_setVal T.table i v) i'
          simp only [Option.map_eq_map, Option.map_some, hval, Slot.nodeVal.injEq, true_and]
          by_cases hi : i' = i
          · subst hi
            rw [Function.update_self, if_pos rfl]
          · rw [Function.update_of_ne hi, if_neg hi]
            rfl
      · rw [List.getElem?_modify_ne _ _ ht, if_neg (by simp [Ne.symm ht])]
  | element a i =>
    cases slot' with
    | root => rfl
    | nodeVal t' i' => rfl
    | element a' i' =>
      simp only [read, write]
      by_cases ha : a = a'
      · subst ha
        rw [List.getElem?_modify_eq]
        cases H.arrays[a]? with
        | none => simp
        | some values =>
          simp only [Option.map_eq_map, Option.map_some, Option.bind_some, List.getElem?_set,
            Slot.element.injEq, true_and, eq_comm (a := i)]
          split
          · subst_vars
            split
            · rename_i hlt
              rw [List.getElem?_eq_getElem hlt, Option.map_some]
            · rename_i hlt
              rw [List.getElem?_eq_none (Nat.le_of_not_lt hlt), Option.map_none]
          · rfl
      · rw [List.getElem?_modify_ne _ _ ha, if_neg (by simp [Ne.symm ha])]

/-- A slot that has been written. -/
theorem read_write_self {H : Heap} {slot : Slot} {w : SQObjectPtr} (hread : H.read slot = some w)
    (v : SQObjectPtr) : (H.write slot v).read slot = some v := by
  rw [read_write, if_pos rfl, hread, Option.map_some]

/-- A write of a reference to an object of the heap. -/
theorem Sound.write {H : Heap} (h : H.Sound) {slot : Slot} {v : SQObjectPtr}
    (hv : H.InRange v.obj) : (H.write slot v).Sound := by
  intro slot' w hs hread
  have hshape := H.shape_write slot v
  apply InRange.of_shape hshape
  rw [read_write] at hread
  split at hread
  · obtain ⟨-, -, rfl⟩ := Option.map_eq_some_iff.mp hread
    exact hv
  · exact h slot' w (HasSlot.of_shape hshape.symm hs) hread

end Heap

/-! ## States of the traversal -/

/-- A release only frees objects. -/
theorem release_eq (depth : Nat) :
    ∀ obj s, ∃ freed, release depth obj s = { s with freed := freed } := by
  induction depth with
  | zero => exact fun obj s => ⟨s.freed, rfl⟩
  | succ depth ih =>
    intro obj s
    rw [release]
    split
    case isFalse => exact ⟨s.freed, rfl⟩
    case isTrue =>
      have hall : ∀ (l : List SQObject) (s : State), ∃ freed,
          l.foldl (fun s child => release depth child s) s = { s with freed := freed } := by
        intro l
        induction l with
        | nil => exact fun s => ⟨s.freed, rfl⟩
        | cons child l ihl =>
          intro s
          obtain ⟨freed, h⟩ := ih child s
          obtain ⟨freed', h'⟩ := ihl { s with freed := freed }
          exact ⟨freed', by rw [List.foldl_cons, h, h']⟩
      obtain ⟨freed, h⟩ := hall (s.heap.children obj) { s with freed := obj :: s.freed }
      exact ⟨freed, h⟩

/-- Every reference in the graph and in the caches is to an object of the heap. -/
structure Valid (s : State) : Prop where
  heap : s.heap.Sound
  tables : ∀ index, s.heap.InRange (s.tableCache index)
  arrays : ∀ index, s.heap.InRange (s.arrayCache index)

theorem Valid.write {s : State} (h : Valid s) {slot : Slot} {v : SQObjectPtr}
    (hv : s.heap.InRange v.obj) : Valid (s.write slot v) where
  heap := h.heap.write hv
  tables index := Heap.InRange.of_shape (s.heap.shape_write slot v) (h.tables index)
  arrays index := Heap.InRange.of_shape (s.heap.shape_write slot v) (h.arrays index)

/-- The store over an equal container, with what it frees. -/
theorem Valid.assign {s : State} (h : Valid s) {slot : Slot} {cached old : SQObject}
    (hcached : s.heap.InRange cached) : Valid (s.assign slot cached old) := by
  have hwrite : Valid (s.write slot ⟨cached, true⟩) := h.write hcached
  obtain ⟨freed, heq⟩ := release_eq s.heap.containers.length old (s.write slot ⟨cached, true⟩)
  rw [State.assign, heq]
  exact ⟨hwrite.heap, hwrite.tables, hwrite.arrays⟩

theorem shape_assign (s : State) (slot : Slot) (cached old : SQObject) :
    (s.assign slot cached old).heap.shape = s.heap.shape := by
  obtain ⟨freed, heq⟩ := release_eq s.heap.containers.length old (s.write slot ⟨cached, true⟩)
  rw [State.assign, heq]
  exact s.heap.shape_write slot _

theorem Valid.cacheTable {s : State} (h : Valid s) {obj : SQObject} (hobj : s.heap.InRange obj)
    (index : Nat) : Valid { s with tableCache := Function.update s.tableCache index obj } where
  heap := h.heap
  tables :=
    (Function.forall_update_iff s.tableCache fun _ => s.heap.InRange).mpr
      ⟨hobj, fun j _ => h.tables j⟩
  arrays := h.arrays

theorem Valid.cacheArray {s : State} (h : Valid s) {obj : SQObject} (hobj : s.heap.InRange obj)
    (index : Nat) : Valid { s with arrayCache := Function.update s.arrayCache index obj } where
  heap := h.heap
  tables := h.tables
  arrays :=
    (Function.forall_update_iff s.arrayCache fun _ => s.heap.InRange).mpr
      ⟨hobj, fun j _ => h.arrays j⟩

/-- The call returns, in a state of the same shape. -/
def Returns (s : State) (res : Option (State × Bool)) : Prop :=
  ∃ s' r, res = some (s', r) ∧ Valid s' ∧ s'.heap.shape = s.heap.shape

theorem Returns.of_shape {s s₁ : State} {res : Option (State × Bool)}
    (hshape : s₁.heap.shape = s.heap.shape) (h : Returns s₁ res) : Returns s res := by
  obtain ⟨s', r, hres, hvalid, hshape'⟩ := h
  exact ⟨s', r, hres, hvalid, hshape'.trans hshape⟩

/-- The stacks of the tables and the arrays that are being visited. -/
structure Stacks (H : Heap) (vt va : List Nat) : Prop where
  tablesNodup : vt.Nodup
  arraysNodup : va.Nodup
  tables : ∀ t ∈ vt, H.InRange (.table t)
  arrays : ∀ a ∈ va, H.InRange (.array a)

/-- The number of containers that are not on the stacks. -/
def unvisited (H : Heap) (vt va : List Nat) : Nat :=
  (H.shape.1.length - vt.length) + (H.shape.2.length - va.length)

/-- Numbers below a bound without repetition are at most as many. -/
theorem length_le_of_nodup {l : List Nat} {n : Nat} (hl : l.Nodup) (hlt : ∀ x ∈ l, x < n) :
    l.length ≤ n := by
  have hsub : l ⊆ List.range n := fun x hx => List.mem_range.mpr (hlt x hx)
  have hle := (hl.subperm hsub).length_le
  rwa [List.length_range] at hle

section Stacks

variable {H H' : Heap} {vt va : List Nat}

theorem Stacks.of_shape (hshape : H'.shape = H.shape) (h : Stacks H vt va) : Stacks H' vt va where
  tablesNodup := h.tablesNodup
  arraysNodup := h.arraysNodup
  tables t ht := (h.tables t ht).of_shape hshape
  arrays a ha := (h.arrays a ha).of_shape hshape

theorem unvisited_of_shape (hshape : H'.shape = H.shape) :
    unvisited H' vt va = unvisited H vt va := by
  rw [unvisited, unvisited, hshape]

theorem Stacks.pushTable {t : Nat} (h : Stacks H vt va) (hnew : t ∉ vt)
    (ht : H.InRange (.table t)) : Stacks H (t :: vt) va where
  tablesNodup := List.nodup_cons.mpr ⟨hnew, h.tablesNodup⟩
  arraysNodup := h.arraysNodup
  tables := List.forall_mem_cons.mpr ⟨ht, h.tables⟩
  arrays := h.arrays

theorem Stacks.pushArray {a : Nat} (h : Stacks H vt va) (hnew : a ∉ va)
    (ha : H.InRange (.array a)) : Stacks H vt (a :: va) where
  tablesNodup := h.tablesNodup
  arraysNodup := List.nodup_cons.mpr ⟨hnew, h.arraysNodup⟩
  tables := h.tables
  arrays := List.forall_mem_cons.mpr ⟨ha, h.arrays⟩

/-- A pushed table is one container less to visit. -/
theorem Stacks.unvisited_pushTable {t : Nat} (h : Stacks H (t :: vt) va) :
    unvisited H (t :: vt) va < unvisited H vt va := by
  have hle := length_le_of_nodup h.tablesNodup h.tables
  simp only [unvisited, List.length_cons] at hle ⊢
  omega

/-- A pushed array is one container less to visit. -/
theorem Stacks.unvisited_pushArray {a : Nat} (h : Stacks H vt (a :: va)) :
    unvisited H vt (a :: va) < unvisited H vt va := by
  have hle := length_le_of_nodup h.arraysNodup h.arrays
  simp only [unvisited, List.length_cons] at hle ⊢
  omega

end Stacks

/-! ## The loops -/

/-- The calls at this depth return. -/
def Ends (depth : Nat) (f : Shrink) : Prop :=
  ∀ {vt va slot s}, Valid s → s.heap.HasSlot slot → Stacks s.heap vt va →
    unvisited s.heap vt va < depth → Returns s (f vt va slot s)

variable {depth : Nat} {f : Shrink} {vt va : List Nat}

/-- The loop over the nodes ends: a call on the way keeps the shape, and so the bound for the rest.
-/
theorem shrinkNodes_ends (hf : Ends depth f) {t : Nat} (nodes : List Nat) :
    ∀ {simple : Bool} {s : State}, Valid s → s.heap.InRange (.table t) → Stacks s.heap vt va →
      unvisited s.heap vt va < depth → Returns s (shrinkNodes f vt va t nodes simple s) := by
  induction nodes with
  | nil => exact fun hs _ _ _ => ⟨_, _, rfl, hs, rfl⟩
  | cons i rest ih =>
    intro simple s hs ht hstacks hdepth
    obtain ⟨T, hT⟩ := ht.table
    rw [shrinkNodes, hT]
    dsimp only
    split
    case h_1 => exact ih hs ht hstacks hdepth
    case h_2 key hkey =>
      split
      case isFalse => exact ih hs ht hstacks hdepth
      case isTrue =>
        have hslot : s.heap.HasSlot (.nodeVal t i) :=
          Heap.hasSlot_nodeVal hT fun hnone => by cases hkey.symm.trans hnone
        obtain ⟨s₁, r₁, hcall, hs₁, hshape⟩ := hf hs hslot hstacks hdepth
        rw [hcall]
        apply Returns.of_shape hshape
        exact ih hs₁ (ht.of_shape hshape) (hstacks.of_shape hshape)
          ((unvisited_of_shape hshape).trans_lt hdepth)

/-- The loop over the elements ends in the same way. -/
theorem shrinkElements_ends (hf : Ends depth f) {a : Nat} (indices : List Nat) :
    ∀ {simple : Bool} {s : State}, Valid s → (∀ i ∈ indices, s.heap.HasSlot (.element a i)) →
      Stacks s.heap vt va → unvisited s.heap vt va < depth →
      Returns s (shrinkElements f vt va a indices simple s) := by
  induction indices with
  | nil => exact fun hs _ _ _ => ⟨_, _, rfl, hs, rfl⟩
  | cons i rest ih =>
    intro simple s hs hslots hstacks hdepth
    have hslot := hslots i List.mem_cons_self
    have hrest : ∀ j ∈ rest, s.heap.HasSlot (.element a j) :=
      fun j hj => hslots j (List.mem_cons_of_mem i hj)
    obtain ⟨value, hvalue⟩ := hslot.read
    rw [shrinkElements, hvalue]
    dsimp only
    split
    case isFalse => exact ih hs hrest hstacks hdepth
    case isTrue =>
      obtain ⟨s₁, r₁, hcall, hs₁, hshape⟩ := hf hs hslot hstacks hdepth
      rw [hcall]
      apply Returns.of_shape hshape
      exact ih hs₁ (fun j hj => (hrest j hj).of_shape hshape) (hstacks.of_shape hshape)
        ((unvisited_of_shape hshape).trans_lt hdepth)

/-! ## The two containers -/

/-- A table that is not on its stack is pushed, so the calls have one container less to visit. -/
theorem visitTable_ends (hf : Ends depth f) {slot : Slot} {t : Nat} {T : TableObject}
    {index : Nat} {s : State} (hs : Valid s) (hslot : s.heap.HasSlot slot)
    (ht : s.heap.InRange (.table t)) (hstacks : Stacks s.heap vt va)
    (hdepth : unvisited s.heap vt va < depth + 1) :
    Returns s (visitTable f vt va slot t T index s) := by
  unfold visitTable
  split
  case isTrue => exact ⟨_, _, rfl, hs, rfl⟩
  case isFalse hnew =>
    have hpush := hstacks.pushTable hnew ht
    have hless := hpush.unvisited_pushTable
    obtain ⟨s₁, simple, hnodes, hs₁, hshape⟩ :=
      shrinkNodes_ends hf (List.range T.table.size) hs ht hpush (by omega)
    rw [hnodes]
    dsimp only
    split
    case isFalse => exact ⟨_, _, rfl, hs₁, hshape⟩
    case isTrue =>
      have hslot₁ := hslot.of_shape hshape
      obtain ⟨w, hw⟩ := hslot₁.read
      rw [hw]
      exact ⟨_, _, rfl, hs₁.cacheTable (hs₁.heap slot w hslot₁ hw) index, hshape⟩

/-- The same for an array. -/
theorem visitArray_ends (hf : Ends depth f) {slot : Slot} {a : Nat} {values : List SQObjectPtr}
    {index : Nat} {s : State} (hs : Valid s) (hslot : s.heap.HasSlot slot)
    (ha : s.heap.arrays[a]? = some values) (hstacks : Stacks s.heap vt va)
    (hdepth : unvisited s.heap vt va < depth + 1) :
    Returns s (visitArray f vt va slot a values index s) := by
  unfold visitArray
  split
  case isTrue => exact ⟨_, _, rfl, hs, rfl⟩
  case isFalse hnew =>
    have hrange : s.heap.InRange (.array a) := by
      simpa only [Heap.InRange, Heap.shape, List.length_map]
        using (List.getElem?_eq_some_iff.mp ha).1
    have hpush := hstacks.pushArray hnew hrange
    have hless := hpush.unvisited_pushArray
    have hslots : ∀ i ∈ List.range values.length, s.heap.HasSlot (.element a i) :=
      fun i hi => Heap.hasSlot_element ha (List.mem_range.mp hi)
    obtain ⟨s₁, simple, helements, hs₁, hshape⟩ :=
      shrinkElements_ends hf (List.range values.length) hs hslots hpush (by omega)
    rw [helements]
    dsimp only
    split
    case isFalse => exact ⟨_, _, rfl, hs₁, hshape⟩
    case isTrue =>
      have hslot₁ := hslot.of_shape hshape
      obtain ⟨w, hw⟩ := hslot₁.read
      rw [hw]
      exact ⟨_, _, rfl, hs₁.cacheArray (hs₁.heap slot w hslot₁ hw) index, hshape⟩

/-- The case of a table returns, by the cache or by the loop. -/
theorem shrinkTable_ends (hf : Ends depth f) {M : Memory} {slot : Slot} {t : Nat} {s : State}
    (hs : Valid s) (hslot : s.heap.HasSlot slot) (ht : s.heap.InRange (.table t))
    (hstacks : Stacks s.heap vt va) (hdepth : unvisited s.heap vt va < depth + 1) :
    Returns s (shrinkTable M f vt va slot t s) := by
  have hshape : (s.write slot ⟨.table t, true⟩).heap.shape = s.heap.shape :=
    s.heap.shape_write slot ⟨.table t, true⟩
  have hs₁ : Valid (s.write slot ⟨.table t, true⟩) := hs.write ht
  have hslot₁ := hslot.of_shape hshape
  have ht₁ := ht.of_shape hshape
  have hstacks₁ := hstacks.of_shape hshape
  have hdepth₁ := (unvisited_of_shape hshape).trans_lt hdepth
  apply Returns.of_shape hshape
  rw [shrinkTable]
  dsimp only
  generalize s.write slot ⟨.table t, true⟩ = s₁ at hs₁ hslot₁ ht₁ hstacks₁ hdepth₁ ⊢
  obtain ⟨T, hT⟩ := ht₁.table
  rw [hT]
  dsimp only
  split
  case isFalse => exact visitTable_ends hf hs₁ hslot₁ ht₁ hstacks₁ hdepth₁
  case isTrue =>
    split
    case h_2 => exact visitTable_ends hf hs₁ hslot₁ ht₁ hstacks₁ hdepth₁
    case h_1 o ho =>
      have hrange : s₁.heap.InRange (.table o) := ho ▸ hs₁.tables _
      obtain ⟨O, hO⟩ := hrange.table
      rw [hO]
      dsimp only
      have hs₂ : Valid { s₁ with asked := s₁.asked ++ [⟨t, o, T, O⟩] } :=
        ⟨hs₁.heap, hs₁.tables, hs₁.arrays⟩
      split
      case isTrue => exact ⟨_, _, rfl, hs₂.assign hrange, shape_assign _ slot _ _⟩
      case isFalse =>
        exact (visitTable_ends hf hs₂ hslot₁ ht₁ hstacks₁ hdepth₁).of_shape rfl

/-- The case of an array returns. -/
theorem shrinkArray_ends (hf : Ends depth f) {M : Memory} {slot : Slot} {a : Nat} {s : State}
    (hs : Valid s) (hslot : s.heap.HasSlot slot) (ha : s.heap.InRange (.array a))
    (hstacks : Stacks s.heap vt va) (hdepth : unvisited s.heap vt va < depth + 1) :
    Returns s (shrinkArray M f vt va slot a s) := by
  have hshape : (s.write slot ⟨.array a, true⟩).heap.shape = s.heap.shape :=
    s.heap.shape_write slot ⟨.array a, true⟩
  have hs₁ : Valid (s.write slot ⟨.array a, true⟩) := hs.write ha
  have hslot₁ := hslot.of_shape hshape
  have ha₁ := ha.of_shape hshape
  have hstacks₁ := hstacks.of_shape hshape
  have hdepth₁ := (unvisited_of_shape hshape).trans_lt hdepth
  apply Returns.of_shape hshape
  rw [shrinkArray]
  dsimp only
  generalize s.write slot ⟨.array a, true⟩ = s₁ at hs₁ hslot₁ ha₁ hstacks₁ hdepth₁ ⊢
  obtain ⟨values, hvalues⟩ := ha₁.array
  rw [hvalues]
  dsimp only
  split
  case isFalse => exact visitArray_ends hf hs₁ hslot₁ hvalues hstacks₁ hdepth₁
  case isTrue =>
    split
    case h_2 => exact visitArray_ends hf hs₁ hslot₁ hvalues hstacks₁ hdepth₁
    case h_1 o ho =>
      have hrange : s₁.heap.InRange (.array o) := ho ▸ hs₁.arrays _
      obtain ⟨others, hothers⟩ := hrange.array
      rw [hothers]
      dsimp only
      split
      case isTrue => exact ⟨_, _, rfl, hs₁.assign hrange, shape_assign _ slot _ _⟩
      case isFalse => exact visitArray_ends hf hs₁ hslot₁ hvalues hstacks₁ hdepth₁

/-! ## The whole run -/

/-- By induction on the depth: each level has a container less to visit. -/
theorem shrink_ends (M : Memory) (depth : Nat) : Ends depth (shrink M depth) := by
  induction depth with
  | zero => exact fun _ _ _ hdepth => absurd hdepth (Nat.not_lt_zero _)
  | succ depth ih =>
    intro vt va slot s hs hslot hstacks hdepth
    obtain ⟨w, hw⟩ := hslot.read
    have hrange := hs.heap slot w hslot hw
    obtain ⟨obj, flag⟩ := w
    rw [shrink, hw]
    cases obj with
    | table t => exact shrinkTable_ends ih hs hslot hrange hstacks hdepth
    | array a => exact shrinkArray_ends ih hs hslot hrange hstacks hdepth
    | _ => exact ⟨_, _, rfl, hs, rfl⟩

/-- The call returns. -/
theorem sqDeduplicateObject_returns {M : Memory} {H : Heap} (hsound : H.Sound)
    (hdepth : H.tables.length + H.arrays.length < depth) :
    ∃ s, sqDeduplicateObject M depth H = some s := by
  have hvalid : Valid ⟨H, [], fun _ => .null, fun _ => .null, []⟩ :=
    ⟨hsound, fun _ => trivial, fun _ => trivial⟩
  have hstacks : Stacks H [] [] := ⟨List.nodup_nil, List.nodup_nil, nofun, nofun⟩
  have hall : unvisited H [] [] = H.tables.length + H.arrays.length := by
    simp only [unvisited, Heap.shape, List.length_map, List.length_nil, Nat.sub_zero]
  have hslot : H.HasSlot .root := trivial
  obtain ⟨s, r, hs, -, -⟩ := shrink_ends M depth hvalid hslot hstacks (hall ▸ hdepth)
  exact ⟨s, congrArg (Option.map Prod.fst) hs⟩

end Quirrel.Dedup
