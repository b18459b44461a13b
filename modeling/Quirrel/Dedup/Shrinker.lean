import Quirrel.Table.FiniteMap

set_option autoImplicit false

/-!
# `SQDeduplicateShrinker`

The traversal of `sqdedupshrinker.cpp`. Objects that are neither tables nor arrays are
leaves, told apart by their type and address; what they refer to counts as held from
outside. A table or an array is freed with the last reference to it. A cached one stays
in the slot that it was cached from, so the references of the caches are not counted. The
memory that the hash is taken of, what lies behind a node array, and the bytes that no
value shows are parameters.
`asked` is a ghost field: the tables that `SQTable::IsBinaryEqual` was asked about.
-/

namespace Quirrel.Dedup

open Quirrel.Table (SQTable HashNode ObjectOps)

/-- `SQObject` without its flags. An object has one weak reference, `_weakref`. -/
inductive SQObject where
  | null
  | bool (b : Bool)
  | integer (n : BitVec 64)
  | float (f : BitVec 32)
  | string (addr : Nat)
  | table (id : Nat)
  | array (id : Nat)
  | weakref (obj : SQObject)
  | other (type addr : Nat)
  deriving DecidableEq, Repr

/-- `SQObjectPtr`, with `SQOBJ_FLAG_IMMUTABLE`. -/
structure SQObjectPtr where
  obj : SQObject
  immutable : Bool
  deriving DecidableEq, Repr

/-- A node of a table. -/
abbrev Node := HashNode SQObject SQObjectPtr

/-- A table with its delegate. -/
structure TableObject where
  table : SQTable SQObject SQObjectPtr
  delegate : Option Nat

/-- The slots that a reference `SQObjectPtr &` can be to. -/
inductive Slot where
  | root
  | nodeVal (table node : Nat)
  | element (array index : Nat)
  deriving DecidableEq

/-- The object graph. -/
structure Heap where
  root : SQObjectPtr
  tables : List TableObject
  arrays : List (List SQObjectPtr)
  /-- What the rest of the machine refers to. -/
  held : List SQObject

namespace Heap

/-- The reference in a slot. -/
def read (H : Heap) : Slot → Option SQObjectPtr
  | .root => some H.root
  | .nodeVal t i => H.tables[t]?.map fun T => (T.table.nodes i).val
  | .element a i => H.arrays[a]?.bind fun values => values[i]?

/-- The store to a slot. -/
def write (H : Heap) (slot : Slot) (obj : SQObjectPtr) : Heap :=
  match slot with
  | .root => { H with root := obj }
  | .nodeVal t i =>
    { H with tables := H.tables.modify t fun T => { T with table := T.table.setVal i obj } }
  | .element a i => { H with arrays := H.arrays.modify a fun values => values.set i obj }

end Heap

/-- The memory of node arrays and of array values as 32-bit words, the nodes that lie behind a node array,
and whether two containers agree in the bytes that no value shows: the flags of keys, and what a short
value leaves of its word. -/
structure Memory where
  tableWords : Nat → TableObject → List (BitVec 32)
  arrayWords : Nat → List SQObjectPtr → List (BitVec 32)
  behind : Nat → Nat → Node
  sameTableRest : Nat → Nat → Bool
  sameArrayRest : Nat → Nat → Bool

/-- `calc_shrinker_hash` -/
def calcShrinkerHash (data : List (BitVec 32)) : BitVec 32 :=
  let hash := data.foldl (fun hash word => (hash ^^^ word) * 0x01193193#32) 0x811c9dc5#32
  (hash >>> 19) ^^^ hash

/-- `CACHE_SIZE` -/
def cacheSize : Nat := 1 <<< 12

/-- `CACHE_ITEMS_LIMIT` -/
def cacheItemsLimit : Nat := 20

/-- The place in the cache for the memory of a container. -/
def cacheIndex (data : List (BitVec 32)) : Nat := (calcShrinkerHash data).toNat % cacheSize

/-- Whether two nodes are equal. The chains of two tables run through arrays
of their own, so two `next` pointers are equal when both are null. -/
def sameNode (n o : Node) : Bool :=
  n.val = o.val && n.key = o.key && n.next.isNone && o.next.isNone

/-- The node at an index from the start of a node array. -/
def nodeAt (M : Memory) (id : Nat) (T : TableObject) (i : Nat) : Node :=
  if i < T.table.size then T.table.nodes i else M.behind id i

/-- `memcmp` over as many nodes as `this` has. -/
def sameNodes (M : Memory) (t o : Nat) (T O : TableObject) : Bool :=
  M.sameTableRest t o &&
    (List.range T.table.size).all fun i => sameNode (nodeAt M t T i) (nodeAt M o O i)

/-- Whether `SQTable::IsBinaryEqual` comes to compare the nodes. -/
def comparesNodes (t o : Nat) (T O : TableObject) : Bool :=
  O.table.usednodes = T.table.usednodes && O.table.classTypeId = T.table.classTypeId &&
    o ≠ t && O.table.usednodes ≠ 0

/-- `SQTable::IsBinaryEqual` -/
def isBinaryEqual (M : Memory) (t o : Nat) (T O : TableObject) : Bool :=
  if O.table.usednodes ≠ T.table.usednodes ∨ O.table.classTypeId ≠ T.table.classTypeId then false
  else if o = t then true
  else if O.table.usednodes = 0 then true
  else sameNodes M t o T O

/-- `SQArray::IsBinaryEqual` -/
def arraysBinaryEqual (M : Memory) (a o : Nat) (values others : List SQObjectPtr) : Bool :=
  if a = o then true
  else if values.length ≠ others.length then false
  else if values.length = 0 then true
  else M.sameArrayRest a o && values = others

/-- A call of `SQTable::IsBinaryEqual`. -/
structure Asked where
  thisId : Nat
  otherId : Nat
  this : TableObject
  other : TableObject

/-- The state of the traversal. -/
structure State where
  heap : Heap
  freed : List SQObject
  tableCache : Nat → SQObject
  arrayCache : Nat → SQObject
  asked : List Asked

/-- A slot gets a reference. -/
def State.write (s : State) (slot : Slot) (obj : SQObjectPtr) : State :=
  { s with heap := s.heap.write slot obj }

/-- The types of values that a cached container may hold. -/
def SQObject.isSimple : SQObject → Bool
  | .null | .string _ | .integer _ | .float _ | .bool _ => true
  | _ => false

/-- `sq_isstring` -/
def SQObject.isString : SQObject → Bool
  | .string _ => true
  | _ => false

/-- `sq_isarray` or `sq_istable` -/
def SQObject.isContainer : SQObject → Bool
  | .table _ | .array _ => true
  | _ => false

/-! ## References -/

/-- The key and the value of a used node. -/
def nodeChildren (n : Node) : List SQObject :=
  match n.key with
  | none => []
  | some key => [key, n.val.obj]

/-- The keys, the values and the delegate of a table. -/
def TableObject.children (T : TableObject) : List SQObject :=
  ((List.range T.table.size).flatMap fun i => nodeChildren (T.table.nodes i)) ++
    (T.delegate.map SQObject.table).toList

/-- What a table or an array refers to. -/
def Heap.children (H : Heap) : SQObject → List SQObject
  | .table t => (H.tables[t]?.map TableObject.children).getD []
  | .array a => ((H.arrays[a]?).getD []).map SQObjectPtr.obj
  | _ => []

/-- The tables and the arrays. -/
def Heap.containers (H : Heap) : List SQObject :=
  (List.range H.tables.length).map .table ++ (List.range H.arrays.length).map .array

/-- There is a reference to an object that counts. -/
def State.refers (s : State) (obj : SQObject) : Bool :=
  s.heap.root.obj = obj || obj ∈ s.heap.held ||
    s.heap.containers.any fun c => c ∉ s.freed && obj ∈ s.heap.children c

/-- An object has lost a reference. Without another one it is freed, and what it refers to loses
one. The number bounds the depth of the calls. -/
def release : Nat → SQObject → State → State
  | 0, _, s => s
  | depth + 1, obj, s =>
    if obj.isContainer && obj ∉ s.freed && !s.refers obj then
      (s.heap.children obj).foldl (fun s child => release depth child s)
        { s with freed := obj :: s.freed }
    else s

/-- `obj = cached`, where `obj` is a reference to the slot and held `old`. -/
def State.assign (s : State) (slot : Slot) (cached old : SQObject) : State :=
  release s.heap.containers.length old (s.write slot ⟨cached, true⟩)

/-! ## The traversal -/

/-- `shrink` with the stacks of visited tables and arrays; the stacks are as before when
it returns. -/
abbrev Shrink := List Nat → List Nat → Slot → State → Option (State × Bool)

/-- The loop over the nodes of a table, and whether they are all simple. -/
def shrinkNodes (shrink : Shrink) (vt va : List Nat) (t : Nat) :
    List Nat → Bool → State → Option (State × Bool)
  | [], simpleTypes, s => some (s, simpleTypes)
  | i :: rest, simpleTypes, s =>
    match s.heap.tables[t]? with
    | none => none
    | some T =>
      match (T.table.nodes i).key with
      | none => shrinkNodes shrink vt va t rest simpleTypes s
      | some key =>
        let val := (T.table.nodes i).val.obj
        let simpleTypes := simpleTypes && key.isString && val.isSimple
        if val.isContainer then
          match shrink vt va (.nodeVal t i) s with
          | none => none
          | some (s, _) => shrinkNodes shrink vt va t rest simpleTypes s
        else shrinkNodes shrink vt va t rest simpleTypes s

/-- The loop over the elements of an array. -/
def shrinkElements (shrink : Shrink) (vt va : List Nat) (a : Nat) :
    List Nat → Bool → State → Option (State × Bool)
  | [], simpleTypes, s => some (s, simpleTypes)
  | i :: rest, simpleTypes, s =>
    match s.heap.read (.element a i) with
    | none => none
    | some value =>
      let simpleTypes := simpleTypes && value.obj.isSimple
      if value.obj.isContainer then
        match shrink vt va (.element a i) s with
        | none => none
        | some (s, _) => shrinkElements shrink vt va a rest simpleTypes s
      else shrinkElements shrink vt va a rest simpleTypes s

/-- `shrink` from the check of the stack on, for a table. -/
def visitTable (shrink : Shrink) (vt va : List Nat) (slot : Slot) (t : Nat) (T : TableObject)
    (index : Nat) (s : State) : Option (State × Bool) :=
  if t ∈ vt then some (s, false)
  else
    match shrinkNodes shrink (t :: vt) va t (List.range T.table.size) true s with
    | none => none
    | some (s, simpleTypes) =>
      if simpleTypes && T.table.usednodes ≤ cacheItemsLimit then
        match s.heap.read slot with
        | none => none
        | some obj =>
          some ({ s with tableCache := Function.update s.tableCache index obj.obj }, false)
      else some (s, false)

/-- `shrink`, the case of a table. -/
def shrinkTable (M : Memory) (shrink : Shrink) (vt va : List Nat) (slot : Slot) (t : Nat)
    (s : State) : Option (State × Bool) :=
  let s := s.write slot ⟨.table t, true⟩
  match s.heap.tables[t]? with
  | none => none
  | some T =>
    if T.table.usednodes ≤ cacheItemsLimit then
      let index := cacheIndex (M.tableWords t T)
      match s.tableCache index with
      | .table o =>
        match s.heap.tables[o]? with
        | none => none
        | some O =>
          let s := { s with asked := s.asked ++ [⟨t, o, T, O⟩] }
          if isBinaryEqual M t o T O then some (s.assign slot (.table o) (.table t), true)
          else visitTable shrink vt va slot t T index s
      | _ => visitTable shrink vt va slot t T index s
    else visitTable shrink vt va slot t T 0 s

/-- `shrink` from the check of the stack on, for an array. -/
def visitArray (shrink : Shrink) (vt va : List Nat) (slot : Slot) (a : Nat)
    (values : List SQObjectPtr) (index : Nat) (s : State) : Option (State × Bool) :=
  if a ∈ va then some (s, false)
  else
    match shrinkElements shrink vt (a :: va) a (List.range values.length) true s with
    | none => none
    | some (s, simpleTypes) =>
      if simpleTypes && values.length ≤ cacheItemsLimit then
        match s.heap.read slot with
        | none => none
        | some obj =>
          some ({ s with arrayCache := Function.update s.arrayCache index obj.obj }, false)
      else some (s, false)

/-- `shrink`, the case of an array. -/
def shrinkArray (M : Memory) (shrink : Shrink) (vt va : List Nat) (slot : Slot) (a : Nat)
    (s : State) : Option (State × Bool) :=
  let s := s.write slot ⟨.array a, true⟩
  match s.heap.arrays[a]? with
  | none => none
  | some values =>
    if values.length ≤ cacheItemsLimit then
      let index := cacheIndex (M.arrayWords a values)
      match s.arrayCache index with
      | .array o =>
        match s.heap.arrays[o]? with
        | none => none
        | some others =>
          if arraysBinaryEqual M a o values others then
            some (s.assign slot (.array o) (.array a), true)
          else visitArray shrink vt va slot a values index s
      | _ => visitArray shrink vt va slot a values index s
    else visitArray shrink vt va slot a values 0 s

/-- `SQDeduplicateShrinker::shrink`. The number bounds the depth of the calls. -/
def shrink (M : Memory) : Nat → Shrink
  | 0, _, _, _, _ => none
  | depth + 1, vt, va, slot, s =>
    match s.heap.read slot with
    | none => none
    | some ⟨.table t, _⟩ => shrinkTable M (shrink M depth) vt va slot t s
    | some ⟨.array a, _⟩ => shrinkArray M (shrink M depth) vt va slot a s
    | some _ => some (s, false)

/-- `sq_deduplicate_object` on the object in the root slot: caches of nulls, empty stacks. -/
def sqDeduplicateObject (M : Memory) (depth : Nat) (H : Heap) : Option State :=
  (shrink M depth [] [] .root ⟨H, [], fun _ => .null, fun _ => .null, []⟩).map Prod.fst

end Quirrel.Dedup
