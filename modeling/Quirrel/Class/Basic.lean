import Mathlib.Data.Finmap
import Mathlib.Data.Nat.Bitwise
import Mathlib.Tactic.Basic

/-!
# Classes and instances

`SQClass` and `SQInstance` of `sqclass.h` and `sqclass.cpp`. The member table is the finite map that
`SQTable` implements; a class or an instance is named by its address. An index of the member table
holds a kind and a position: a field of the instance, a method of the class or a native field.
-/

set_option autoImplicit false

namespace Quirrel.Class

universe u v w

/-! ## Member indices -/

/-- `MEMBER_TYPE_FIELD` -/
def memberTypeField : Nat := 1 <<< 22

/-- `MEMBER_TYPE_METHOD` -/
def memberTypeMethod : Nat := 2 <<< 22

/-- `MEMBER_TYPE_NATIVE_FIELD` -/
def memberTypeNativeField : Nat := 3 <<< 22

/-- `MEMBER_KIND_MASK` -/
def memberKindMask : Nat := 3 <<< 22

/-- `MEMBER_MAX_COUNT` -/
def memberMaxCount : Nat := 2 ^ 22 - 1

/-- `_isfieldi` -/
def isField (idx : Nat) : Bool := idx &&& memberKindMask == memberTypeField

/-- `_isnativefieldi` -/
def isNativeField (idx : Nat) : Bool := idx &&& memberKindMask == memberTypeNativeField

/-- `_member_idxi` -/
def memberIdx (idx : Nat) : Nat := idx &&& memberMaxCount

/-- `_make_method_idx` -/
def makeMethodIdx (i : Nat) : Nat := memberTypeMethod ||| i

/-- `_make_field_idx` -/
def makeFieldIdx (i : Nat) : Nat := memberTypeField ||| i

/-- `_make_native_field_idx` -/
def makeNativeFieldIdx (i : Nat) : Nat := memberTypeNativeField ||| i

/-! ## Objects -/

/-- `SQNativeFieldDesc` -/
structure NativeFieldDesc where
  offset : Nat
  type : Nat

/-- What classes ask of keys, of values and of the inline userdata of an instance. -/
structure ObjectOps (K : Type u) (V : Type v) (D : Type w) where
  null : V
  realval : V → V
  setImmutable : V → V
  isClosure : V → Bool
  isNativeClosure : V → Bool
  /-- The clone of a closure whose `_base` is the class at the address. -/
  cloneWithBase : Nat → V → V
  getMetaMethodIdxByName : K → Option Nat
  isConstructorStr : K → Bool
  /-- The aligned size of an instance with so many values, without its userdata. -/
  instanceHeader : Nat → Nat
  getNativeField : NativeFieldDesc → D → V
  /-- `none` on a type mismatch. -/
  setNativeField : NativeFieldDesc → D → V → Option D

/-- `SQClass` -/
structure SQClass (K : Type u) (V : Type v) where
  base : Option Nat
  members : Finmap fun _ : K => Nat
  defaultvalues : List V
  methods : List V
  nativefields : List NativeFieldDesc
  metamethods : Nat → V
  constructoridx : Option Nat
  udsize : Int
  lockedTypeId : Nat

/-- `SQInstance` -/
structure SQInstance (V : Type v) (D : Type w) where
  cls : Nat
  /-- The size of the allocation. -/
  memsize : Int
  values : List V
  inlineud : D

variable {K : Type u} {V : Type v} {D : Type w}

/-- `CLASS_BITS` -/
def classBits : Nat := 40

/-- The class type id in the hint of an instruction. -/
def classTypeFromHint (hint : Nat) : Nat := hint % 2 ^ classBits

/-- `currentHint` of the class at the address. -/
def currentHint (addr : Nat) : Nat := classTypeFromHint (addr >>> 8)

/-- `SQClass::isLocked` -/
def SQClass.isLocked (c : SQClass K V) : Bool := c.lockedTypeId != 0

theorem isLocked_iff {c : SQClass K V} : c.isLocked = true ↔ c.lockedTypeId ≠ 0 := by
  simp [SQClass.isLocked]

/-- `_members->CountUsed()` -/
def SQClass.countUsed (c : SQClass K V) : Nat := c.members.keys.card

variable (ops : ObjectOps K V D) [DecidableEq K]

/-! ## Operations on a class -/

/-- The constructor `SQClass::SQClass`. -/
def SQClass.create (base : Option (Nat × SQClass K V)) : SQClass K V :=
  match base with
  | none =>
    { base := none, members := ∅, defaultvalues := [], methods := [], nativefields := [],
      metamethods := fun _ => ops.null, constructoridx := none, udsize := 0, lockedTypeId := 0 }
  | some (addr, b) => { b with base := some addr, lockedTypeId := 0 }

/-- `belongs_to_static_table` -/
def belongsToStaticTable (val : V) (bstatic : Bool) : Bool :=
  ops.isClosure val || ops.isNativeClosure val || bstatic

/-- The metamethod that a slot of this key and value sets. -/
def metaMethodSlot (key : K) (val : V) : Option Nat :=
  if ops.isClosure val || ops.isNativeClosure val then ops.getMetaMethodIdxByName key else none

/-- The value stored for a method: a closure of a derived class gets its base. -/
def SQClass.methodValue (c : SQClass K V) (val : V) : V :=
  match c.base with
  | some b => if ops.isClosure val then ops.cloneWithBase b val else val
  | none => val

/-- The part of `NewSlot` for a key that is neither a field nor a native field; `temp` is the index
found for it. -/
def SQClass.newMember (c : SQClass K V) (key : K) (val : V) (bstatic : Bool)
    (temp : Option Nat) : SQClass K V × Bool :=
  if c.countUsed ≥ memberMaxCount then (c, false)
  else if belongsToStaticTable ops val bstatic then
    match metaMethodSlot ops key val with
    | some mmidx => ({ c with metamethods := Function.update c.metamethods mmidx val }, true)
    | none =>
      match temp with
      | none =>
        ({ c with
            constructoridx := if ops.isConstructorStr key then some c.methods.length
              else c.constructoridx
            members := c.members.insert key (makeMethodIdx c.methods.length)
            methods := c.methods ++ [c.methodValue ops val] }, true)
      | some idx => ({ c with methods := c.methods.set (memberIdx idx) (c.methodValue ops val) },
          true)
  else
    ({ c with
        members := c.members.insert key (makeFieldIdx c.defaultvalues.length)
        defaultvalues := c.defaultvalues ++ [val] }, true)

/-- `SQClass::NewSlot` -/
def SQClass.newSlot (c : SQClass K V) (key : K) (val : V) (bstatic : Bool) : SQClass K V × Bool :=
  if c.isLocked && !belongsToStaticTable ops val bstatic then (c, false)
  else
    match c.members.lookup key with
    | some idx =>
      if isField idx then
        ({ c with defaultvalues := c.defaultvalues.set (memberIdx idx) val }, true)
      else if isNativeField idx then (c, false)
      else c.newMember ops key val bstatic (some idx)
    | none => c.newMember ops key val bstatic none

/-- The sizes of the native field types: float32, float64, int32, int64, bool. -/
def typeSizes : List Nat := [4, 8, 4, 8, 1]

/-- `SQClass::RegisterNativeField` -/
def SQClass.registerNativeField (c : SQClass K V) (key : K) (desc : NativeFieldDesc) :
    SQClass K V × Bool :=
  if c.isLocked then (c, false)
  else if c.udsize ≤ 0 then (c, false)
  else if h : desc.type < typeSizes.length then
    -- the size is truncated to `uint32_t`
    if desc.offset + typeSizes[desc.type] > c.udsize.toNat % 2 ^ 32 then (c, false)
    else if c.countUsed ≥ memberMaxCount then (c, false)
    else
      match c.members.lookup key with
      | some _ => (c, false)
      | none =>
        ({ c with
            members := c.members.insert key (makeNativeFieldIdx c.nativefields.length)
            nativefields := c.nativefields ++ [desc] }, true)
  else (c, false)

/-! ## Operations on an instance -/

/-- `calcinstancesize` -/
def calcInstanceSize (c : SQClass K V) : Int :=
  c.udsize + ops.instanceHeader c.defaultvalues.length

/-- `SQInstance::Create`, where `ud` is the userdata. -/
def SQInstance.create (cls : Nat) (c : SQClass K V) (ud : D) : SQInstance V D where
  cls := cls
  memsize := calcInstanceSize ops c
  values := c.defaultvalues
  inlineud := ud

/-- `_inlineud`, as an offset into the allocation. -/
def SQInstance.inlineudOffset (i : SQInstance V D) (c : SQClass K V) : Int := i.memsize - c.udsize

/-- `SQInstance::GetMember` -/
def SQInstance.getMember (i : SQInstance V D) (c : SQClass K V) (idx : Nat) : V :=
  if isField idx then ops.realval (i.values.getD (memberIdx idx) ops.null)
  else if isNativeField idx then
    match c.nativefields[memberIdx idx]? with
    | some desc => ops.getNativeField desc i.inlineud
    | none => ops.null
  else c.methods.getD (memberIdx idx) ops.null

/-- `SQInstance::SetMemberField` -/
def SQInstance.setMemberField (i : SQInstance V D) (idx : Nat) (val : V) : SQInstance V D :=
  { i with values := i.values.set (memberIdx idx) val }

/-- `SQInstance::SetNativeField`; `none` on a type mismatch. -/
def SQInstance.setNativeField (i : SQInstance V D) (c : SQClass K V) (fieldIdx : Nat) (val : V) :
    Option (SQInstance V D) :=
  match c.nativefields[fieldIdx]? with
  | some desc => (ops.setNativeField desc i.inlineud val).map fun ud => { i with inlineud := ud }
  | none => none

end Quirrel.Class
