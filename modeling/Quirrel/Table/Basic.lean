import Mathlib.Data.Nat.Log
import Mathlib.Logic.Function.Basic
import Mathlib.Tactic.Basic

/-!
# `SQTable`: chained scatter table

The table of `sqtable.h` and `sqtable.cpp`. Nodes are addressed by their index in `_nodes`; a
pointer to a node is that index and a null pointer is `none`. A key of type `OT_FREE_TABLE_SLOT` is
`none`. The pointer loops walk at most as many nodes as the table has: a longer walk has met a node
twice and does not end, which the model reports as `none`. `newSlot` and `rehash` call each other in
the source; here the depth of these calls is an argument, and a call that needs more is `none` too.

`recorded` is a ghost field: the (position, key) pairs hashed into `_classTypeId` since the hash was
last started from `CLASS_TYPE_HASH_INIT`. No function reads it.
-/

set_option autoImplicit false

namespace Quirrel.Table

universe u v

/-- What the table asks of objects: `HashObj`, the address of the interned string that a string key
is, the null object, and `_realval`, which reads through a weak reference. -/
structure ObjectOps (K : Type u) (V : Type v) where
  hashObj : K → Nat
  stringAddr : K → Option Nat
  null : V
  realval : V → V

/-- `SQTable::_HashNode`. -/
structure HashNode (K : Type u) (V : Type v) where
  val : V
  key : Option K
  next : Option Nat

/-- `SQTable` -/
structure SQTable (K : Type u) (V : Type v) where
  firstfree : Nat
  nodes : Nat → HashNode K V
  numofnodesMinusOne : Nat
  usednodes : Nat
  classTypeId : UInt64
  recorded : List (Nat × K)

variable {K : Type u} {V : Type v}

/-- `MINPOWER2` -/
def minPower2 : Nat := 1

/-- `TBL_CLASS_TYPE_MEMBER_BITS` -/
def tblClassTypeMemberBits : Nat := 5

/-- `TBL_CLASS_TYPE_MEMBER_MASK` -/
def tblClassTypeMemberMask : UInt64 := ((1 : UInt64) <<< 5) - 1

/-- `TBL_CLASS_CLASS_MASK` -/
def tblClassClassMask : UInt64 := (~~~(0 : UInt64)) ^^^ tblClassTypeMemberMask

/-! ## The shape id -/

/-- The start of the class type id. -/
def classTypeHashInit : UInt64 := 14695981039346656037

/-- The factor of the class type id. -/
def classTypeHashPrime : UInt64 := 1099511628211

/-- One word goes into the class type id. -/
def classTypeHashUpdate1 (hashval : UInt64) (x : UInt64) : UInt64 :=
  (hashval ^^^ x) * classTypeHashPrime

/-- The four bytes of `x`, lowest first. -/
def classTypeHashUpdate4 (hashval : UInt64) (x : Nat) : UInt64 :=
  [x % 256, x / 256 % 256, x / 65536 % 256, x / 16777216 % 256].foldl
    (fun h b => (h ^^^ UInt64.ofNat b) * classTypeHashPrime) hashval

/-- One insertion hashed into the id: the 8-bit node index, then 32 bits of the string address. -/
def classTypeHashStep (hashval : UInt64) (insertPos strAddr : Nat) : UInt64 :=
  classTypeHashUpdate4 (classTypeHashUpdate1 hashval (UInt64.ofNat (insertPos % 256)))
    (strAddr / 8 % 4294967296)

namespace SQTable

/-- Number of nodes. -/
def size (t : SQTable K V) : Nat := t.numofnodesMinusOne + 1

/-- A node is replaced. -/
def setNode (t : SQTable K V) (i : Nat) (n : HashNode K V) : SQTable K V :=
  { t with nodes := Function.update t.nodes i n }

/-- The key of a node is replaced. -/
def setKey (t : SQTable K V) (i : Nat) (k : Option K) : SQTable K V :=
  t.setNode i { t.nodes i with key := k }

/-- The value of a node is replaced. -/
def setVal (t : SQTable K V) (i : Nat) (v : V) : SQTable K V :=
  t.setNode i { t.nodes i with val := v }

/-- The link of a node is replaced. -/
def setNext (t : SQTable K V) (i : Nat) (n : Option Nat) : SQTable K V :=
  t.setNode i { t.nodes i with next := n }

/-- `CountUsed` -/
def countUsed (t : SQTable K V) : Nat := t.usednodes

end SQTable

open SQTable

variable (o : ObjectOps K V)

/-- A node as `_HashNode()` constructs it. -/
def emptyNode : HashNode K V := ⟨o.null, none, none⟩

/-- `AllocNodes` -/
def allocNodes (nSize : Nat) (t : SQTable K V) : SQTable K V :=
  { t with
    nodes := fun _ => emptyNode o
    numofnodesMinusOne := nSize - 1
    firstfree := nSize - 1 }

/-- `while (nInitialSize > pow2size) pow2size = pow2size << 1`. -/
def growPow2 (nInitialSize : Int) : Nat → Nat → Nat
  | 0, pow2size => pow2size
  | fuel + 1, pow2size =>
      if nInitialSize > pow2size then growPow2 nInitialSize fuel (pow2size * 2) else pow2size

/-- `SQTable::Create`: every round of the loop doubles the size, so `nInitialSize` rounds do. -/
def create (nInitialSize : Int) : SQTable K V :=
  allocNodes o (growPow2 nInitialSize nInitialSize.toNat minPower2)
    { firstfree := 0, nodes := fun _ => emptyNode o, numofnodesMinusOne := 0, usednodes := 0,
      classTypeId := 0, recorded := [] }

/-- `HashObj(key) & _numofnodes_minus_one` -/
def mainPosition (t : SQTable K V) (key : K) : Nat := o.hashObj key &&& t.numofnodesMinusOne

section Lookup

variable [DecidableEq K]

/-- The loop of `_Get` and `_GetStr`. -/
def getLoop (t : SQTable K V) (key : K) : Nat → Nat → Option (Option Nat)
  | 0, _ => none
  | fuel + 1, n =>
      if (t.nodes n).key = some key then some (some n)
      else
        match (t.nodes n).next with
        | none => some none
        | some n' => getLoop t key fuel n'

/-- `_Get(key, hash)` and `_GetStr(key, hash)`: the node that holds `key`. -/
def getNode (t : SQTable K V) (key : K) : Option (Option Nat) :=
  getLoop t key t.size (mainPosition o t key)

/-- `SQTable::Get` -/
def get (t : SQTable K V) (key : K) : Option (Option V) :=
  (getNode o t key).map fun n => n.map fun i => o.realval (t.nodes i).val

/-- `SQTable::Set` -/
def set (t : SQTable K V) (key : K) (val : V) : Option (SQTable K V × Bool) :=
  (getNode o t key).map fun n =>
    match n with
    | some i => (t.setVal i val, true)
    | none => (t, false)

end Lookup

/-! ## Insertion -/

/-- `while (othern->next != mp) othern = othern->next`; a null `next` is dereferenced. -/
def findPrevious (t : SQTable K V) (mp : Nat) : Nat → Nat → Option Nat
  | 0, _ => none
  | fuel + 1, othern =>
      match (t.nodes othern).next with
      | none => none
      | some j => if j = mp then some othern else findPrevious t mp fuel j

/-- The part of `NewSlot` that makes node `mp` ready for a new key with main position `h`. -/
def placeKey (t : SQTable K V) (h : Nat) : Option (SQTable K V × Nat) :=
  match (t.nodes h).key with
  | none => some (t, h)
  | some mpkey =>
      let n := t.firstfree
      let mph := mainPosition o t mpkey
      if h > n ∧ mph ≠ h then
        -- the colliding node is out of its main position: move it into the free node
        match findPrevious t h t.size mph with
        | none => none
        | some othern =>
            let t1 := t.setNext othern (some n)
            let t2 := t1.setNode n ⟨(t1.nodes h).val, some mpkey, (t1.nodes h).next⟩
            some (t2.setNode h (emptyNode o), h)
      else
        let t1 := t.setNext n (t.nodes h).next
        some (t1.setNext h (some n), n)

/-- `(sq_type(_firstfree->key) & OT_FREE_TABLE_SLOT) && _firstfree->next == NULL` -/
def isFree (t : SQTable K V) (i : Nat) : Bool :=
  (t.nodes i).key.isNone && (t.nodes i).next.isNone

/-- The loop that corrects `_firstfree`, counting down to `_nodes`; `none` when it finds no free
node. -/
def correctFirstfree (t : SQTable K V) : Nat → Option Nat
  | 0 => if isFree t 0 then some 0 else none
  | i + 1 => if isFree t (i + 1) then some (i + 1) else correctFirstfree t i

/-- The update of `_classTypeId` after `key` went to node `mp`. -/
def updateClassTypeId (t : SQTable K V) (key : K) (mp : Nat) : SQTable K V :=
  match o.stringAddr key with
  | some addr =>
      if t.numofnodesMinusOne < 1 <<< tblClassTypeMemberBits then
        if t.classTypeId ≠ 0 then
          { t with
            classTypeId := classTypeHashStep t.classTypeId mp addr
            recorded := t.recorded ++ [(mp, key)] }
        else if t.usednodes = 0 then
          { t with
            classTypeId := classTypeHashStep classTypeHashInit mp addr
            recorded := [(mp, key)] }
        else t
      else { t with classTypeId := 0, recorded := [] }
  | none => { t with classTypeId := 0, recorded := [] }

/-- The new node array `Rehash` allocates, if any. -/
def rehashSize (force : Bool) (t : SQTable K V) : Option Nat :=
  let oldsize := t.size
  let nelems := t.countUsed
  if nelems ≥ oldsize - oldsize / 4 then some (oldsize * 2)
  else if nelems < oldsize / 4 ∧ oldsize > minPower2 then some (oldsize / 2)
  else if force then some (1 <<< (Nat.log2 oldsize + 1))
  else none

/-- Reinsertion of the old node `i` by `Rehash`. -/
def reinsertNode (newSlot : SQTable K V → K → V → Option (SQTable K V × Bool))
    (old : SQTable K V) (t : SQTable K V) (i : Nat) : Option (SQTable K V) :=
  match (old.nodes i).key with
  | none => some t
  | some k => (newSlot t k (old.nodes i).val).map Prod.fst

/-- `SQTable::Rehash` -/
def rehash (newSlot : SQTable K V → K → V → Option (SQTable K V × Bool)) (force : Bool)
    (t : SQTable K V) : Option (SQTable K V) :=
  match rehashSize force t with
  | none => some t
  | some nSize =>
      (List.range t.size).foldlM (reinsertNode newSlot t) { allocNodes o nSize t with usednodes := 0 }

/-- `SQTable::NewSlot`; the result is `true` when the call reports a new slot. -/
def newSlot [DecidableEq K] : Nat → SQTable K V → K → V → Option (SQTable K V × Bool)
  | 0, _, _, _ => none
  | depth + 1, t, key, val =>
      match getNode o t key with
      | none => none
      | some (some n) => some (t.setVal n val, false)
      | some none =>
          match placeKey o t (mainPosition o t key) with
          | none => none
          | some (t1, mp) =>
              let t2 := t1.setKey mp (some key)
              match correctFirstfree t2 t2.firstfree with
              | some f =>
                  let t3 := updateClassTypeId o ({ t2 with firstfree := f }.setVal mp val) key mp
                  some ({ t3 with usednodes := t3.usednodes + 1 }, true)
              | none =>
                  match rehash o (newSlot depth) true { t2 with firstfree := 0 } with
                  | none => none
                  | some t3 => newSlot depth t3 key val

/-! ## The other operations -/

section Operations

variable [DecidableEq K]

/-- `SQTable::Remove` -/
def remove (depth : Nat) (t : SQTable K V) (key : K) : Option (SQTable K V) :=
  match getNode o t key with
  | none => none
  | some none => some t
  | some (some n) =>
      let t1 := t.setNode n { t.nodes n with val := o.null, key := none }
      match rehash o (newSlot o depth) false { t1 with usednodes := t1.usednodes - 1 } with
      | none => none
      | some t2 => some { t2 with classTypeId := 0, recorded := [] }

/-- `_ClearNodes` -/
def clearNodes (t : SQTable K V) : SQTable K V :=
  { t with nodes := fun i => if i ≤ t.numofnodesMinusOne then emptyNode o else t.nodes i }

/-- `SQTable::Clear` -/
def clear (depth : Nat) (t : SQTable K V) (doRehash : Bool) : Option (SQTable K V) :=
  let t1 := { clearNodes o t with usednodes := 0, classTypeId := 0, recorded := [] }
  if doRehash then rehash o (newSlot o depth) true t1
  else some { t1 with firstfree := t1.numofnodesMinusOne }

/-- `SQTable::Clone`: the nodes are copied into a table created with the same number of nodes. -/
def clone (t : SQTable K V) : SQTable K V :=
  let cnt := t.numofnodesMinusOne + 1
  let nt : SQTable K V := create o cnt
  { nt with
    nodes := fun i => if i < cnt then t.nodes i else nt.nodes i
    firstfree := t.firstfree
    usednodes := t.usednodes
    classTypeId := t.classTypeId
    recorded := t.recorded }

/-- `SQTable::GetNodeFromTypeHint`: each failed check ends in `nullptr`. -/
def getNodeFromTypeHint (t : SQTable K V) (hint : UInt64) (key : K) : Option Nat :=
  let nodeIdx := (hint &&& tblClassTypeMemberMask).toNat
  if nodeIdx > t.numofnodesMinusOne then none
  else
    match (t.nodes nodeIdx).key with
    | none => none
    | some k =>
        if (o.stringAddr k).isNone then none
        else if k ≠ key then none
        else some nodeIdx

/-- An operation on a table. -/
inductive TableOp (K : Type u) (V : Type v)
  | newSlot (key : K) (val : V)
  | set (key : K) (val : V)
  | remove (key : K)
  | clear (doRehash : Bool)
  | clone

/-- The table after one operation; after `clone` the run goes on with the copy. -/
def applyOp (depth : Nat) (t : SQTable K V) : TableOp K V → Option (SQTable K V)
  | .newSlot key val => (newSlot o depth t key val).map Prod.fst
  | .set key val => (set o t key val).map Prod.fst
  | .remove key => remove o depth t key
  | .clear doRehash => clear o depth t doRehash
  | .clone => some (clone o t)

/-- The table after a sequence of operations on a new table. -/
def runOps (depth : Nat) (nInitialSize : Int) (ops : List (TableOp K V)) :
    Option (SQTable K V) :=
  ops.foldlM (applyOp o depth) (create o nInitialSize)

end Operations

end Quirrel.Table
