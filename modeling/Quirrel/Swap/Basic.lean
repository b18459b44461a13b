import Mathlib.Logic.Equiv.Basic
import Quirrel.Class.NativeSlots
import Quirrel.Table.Basic

/-!
# `swap`

The native function `swap` of `sqbaselib.cpp` on an array, a table or an instance, with the `Get` and
`Set` that it uses. A lookup in a table that does not end is `none`, as in the table's own functions.
-/

set_option autoImplicit false

namespace Quirrel.Swap

open Quirrel.Lib

universe u

/-- The first argument of a call. -/
inductive Container (K V : Type u) where
  | array (values : List V)
  | table (t : Table.SQTable K V)
  /-- An instance with its class. -/
  | instance (i : Class.SQInstance V ByteMemory) (c : Class.SQClass K V)
  | other

/-- What `swap` asks of keys and of values. -/
structure Ops (K V : Type u) where
  tableOps : Table.ObjectOps K V
  scalarOps : Class.ScalarOps V
  baseOps : Class.ObjectOps K V ByteMemory
  isNumeric : K → Bool
  tointeger : K → Int

/-- A call that is over: the container, the number that the native returned, and the message that it
left in `_lasterror`. -/
structure Result (K V : Type u) where
  container : Container K V
  ret : Int
  lasterror : Option String

variable {K V : Type u}

namespace Ops

variable (ops : Ops K V)

/-- The operations on instances. -/
def classOps : Class.ObjectOps K V ByteMemory := Class.nativeOps ops.scalarOps ops.baseOps

end Ops

/-- `sq_throwerror` -/
def sqThrowerror (o : Container K V) (msg : String) : Result K V := ⟨o, -1, some msg⟩

/-- `v->Push(o); return 1;` -/
def pushed (o : Container K V) (lasterror : Option String) : Result K V := ⟨o, 1, lasterror⟩

/-! ## The array -/

/-- `int k = tointeger(key); k = k >= 0 ? k : asize + k` -/
def arrayIndex (ops : Ops K V) (asize : Nat) (key : K) : Int :=
  let k := (ops.tointeger key).bmod (2 ^ 32)
  if k ≥ 0 then k else asize + k

/-- `_Swap(_values[k1], _values[k2])` -/
def swapValues (values : List V) (k1 k2 : Nat) : List V :=
  match values[k1]?, values[k2]? with
  | some v1, some v2 => (values.set k1 v2).set k2 v1
  | _, _ => values

/-- `swap` on an array. -/
def swapArray (ops : Ops K V) (values : List V) (key1 key2 : K) : Result K V :=
  if !ops.isNumeric key1 || !ops.isNumeric key2 then
    sqThrowerror (.array values) "invalid index type for an array"
  else
    let k1 := arrayIndex ops values.length key1
    let k2 := arrayIndex ops values.length key2
    if k1 ≥ values.length ∨ k2 ≥ values.length ∨ k1 < 0 ∨ k2 < 0 then
      sqThrowerror (.array values) "index is out of range"
    else pushed (.array (swapValues values k1.toNat k2.toNat)) none

/-! ## The instance -/

/-- `SLOT_STATUS_*` -/
inductive SlotStatus where
  | ok
  | noMatch
  | error
  deriving DecidableEq

variable [DecidableEq K]

/-- `SQInstance::Get` -/
def instanceGet (ops : Ops K V) (i : Class.SQInstance V ByteMemory) (c : Class.SQClass K V)
    (key : K) : Option V :=
  (c.members.lookup key).map (i.getMember ops.classOps c)

/-- `SQInstance::Set` -/
def instanceSet (ops : Ops K V) (i : Class.SQInstance V ByteMemory) (c : Class.SQClass K V)
    (key : K) (val : V) : Class.SQInstance V ByteMemory × SlotStatus :=
  match c.members.lookup key with
  | some idx =>
    if Class.isField idx then (i.setMemberField idx val, .ok)
    else if Class.isNativeField idx then
      match i.setNativeField ops.classOps c (Class.memberIdx idx) val with
      | some i' => (i', .ok)
      | none => (i, .error)
    else (i, .noMatch)
  | none => (i, .noMatch)

/-- `swap` on an instance. -/
def swapInstance (ops : Ops K V) (i : Class.SQInstance V ByteMemory) (c : Class.SQClass K V)
    (key1 key2 : K) : Result K V :=
  match instanceGet ops i c key1 with
  | none => sqThrowerror (.instance i c) "the index doesn't exist"
  | some val1 =>
    match instanceGet ops i c key2 with
    | none => sqThrowerror (.instance i c) "the index doesn't exist"
    | some val2 =>
      -- What `Set` returns is not looked at.
      let i1 := (instanceSet ops i c key1 val2).1
      pushed (.instance (instanceSet ops i1 c key2 val1).1 c) none

/-! ## The table -/

/-- `!_table(o)->Get(key1, val1) || !_table(o)->Get(key2, val2)`: `val1`, `val2` and the truth of the
condition. A value that was not found, or not looked for, is null. -/
def readBoth (ops : Ops K V) (t : Table.SQTable K V) (key1 key2 : K) : Option (V × V × Bool) := do
  match ← Table.get ops.tableOps t key1 with
  | none => some (ops.tableOps.null, ops.tableOps.null, true)
  | some val1 =>
    match ← Table.get ops.tableOps t key2 with
    | none => some (val1, ops.tableOps.null, true)
    | some val2 => some (val1, val2, false)

/-- `swap` on a table. -/
def swapTable (ops : Ops K V) (t : Table.SQTable K V) (key1 key2 : K) : Option (Result K V) := do
  let (val1, val2, missing) ← readBoth ops t key1 key2
  -- The error is set, but the native does not return it.
  let lasterror := if missing then some "the index doesn't exist" else none
  let (t1, _) ← Table.set ops.tableOps t key1 val2
  let (t2, _) ← Table.set ops.tableOps t1 key2 val1
  some (pushed (.table t2) lasterror)

/-! ## The native -/

/-- The native `swap`, which looks at the flag first. -/
def swap (ops : Ops K V) (immutable : Bool) (o : Container K V) (key1 key2 : K) :
    Option (Result K V) :=
  if immutable then some (sqThrowerror o "Cannot modify immutable object")
  else
    match o with
    | .array values => some (swapArray ops values key1 key2)
    | .table t => swapTable ops t key1 key2
    | .instance i c => some (swapInstance ops i c key1 key2)
    | .other => some (sqThrowerror .other "swap works only on array/table/instance")

/-! ## Slots -/

/-- The value that the member keeps: of a field, the one stored, also when it is a weak reference. -/
def memberValue (ops : Ops K V) (i : Class.SQInstance V ByteMemory) (c : Class.SQClass K V)
    (idx : Nat) : V :=
  if Class.isField idx then i.values.getD (Class.memberIdx idx) ops.classOps.null
  else i.getMember ops.classOps c idx

/-- The value in the slot of a key of a table or an instance. -/
def Container.slot (ops : Ops K V) (o : Container K V) (key : K) : Option V :=
  match o with
  | .table t => (Table.getNode ops.tableOps t key).join.map fun n => (t.nodes n).val
  | .instance i c => (c.members.lookup key).map (memberValue ops i c)
  | .array _ | .other => none

end Quirrel.Swap
