import Mathlib.Algebra.Group.Int.Defs
import Mathlib.Algebra.GroupWithZero.Nat
import Mathlib.Tactic.Basic

/-!
# `SQObject`

Values of the virtual machine and their type words. A value of a reference type is its type and its
address. `SQFloat` is the default build's 32-bit float.
-/

set_option autoImplicit false

namespace Quirrel.Vm

/-- `SQInteger`, 64 bits wide. -/
abbrev SQInteger := BitVec 64

/-- `SQFloat`, a 32-bit float. -/
abbrev SQFloat := Float32.Model

/-- The types whose value is a pointer, strings apart. -/
inductive RefType where
  | table
  | array
  | userdata
  | closure
  | nativeclosure
  | generator
  | userpointer
  | thread
  | funcproto
  | sqclass
  | sqinstance
  | weakref
  | outer
  deriving DecidableEq

/-- `SQObject`: scalars by value, strings by text, the rest by type and address. -/
inductive SQObject where
  | null
  | integer (i : SQInteger)
  | float (f : SQFloat)
  | bool (b : Bool)
  | string (s : List UInt8)
  | ref (t : RefType) (addr : Nat)
  deriving DecidableEq

/-- `SQMetaMethod` -/
inductive SQMetaMethod where
  | add
  | sub
  | mul
  | div
  | unm
  | modulo
  | set
  | get
  | typeof
  | nexti
  | cmp
  | call
  | cloned
  | newslot
  | delslot
  | tostring
  | lock
  deriving DecidableEq

/-! ## Type words -/

/-- `SQOBJECT_REF_COUNTED` -/
def sqobjectRefCounted : BitVec 32 := 0x08000000#32

/-- `SQOBJECT_NUMERIC` -/
def sqobjectNumeric : BitVec 32 := 0x04000000#32

/-- `SQOBJECT_DELEGABLE` -/
def sqobjectDelegable : BitVec 32 := 0x02000000#32

/-- `_RT_STRING` -/
def rtString : BitVec 32 := 0x00000010#32

/-- `OT_NULL` -/
def otNull : BitVec 32 := 0#32

/-- `OT_INTEGER` -/
def otInteger : BitVec 32 := 0x00000002#32 ||| sqobjectNumeric

/-- `OT_FLOAT` -/
def otFloat : BitVec 32 := 0x00000004#32 ||| sqobjectNumeric

/-- `OT_BOOL` -/
def otBool : BitVec 32 := 0x00000008#32

/-- `OT_STRING` -/
def otString : BitVec 32 := rtString ||| sqobjectRefCounted

/-- The type word of a reference, with its flags. -/
def RefType.typeWord : RefType → BitVec 32
  | .table => 0x00000020#32 ||| sqobjectRefCounted ||| sqobjectDelegable
  | .array => 0x00000040#32 ||| sqobjectRefCounted
  | .userdata => 0x00000080#32 ||| sqobjectRefCounted ||| sqobjectDelegable
  | .closure => 0x00000100#32 ||| sqobjectRefCounted
  | .nativeclosure => 0x00000200#32 ||| sqobjectRefCounted
  | .generator => 0x00000400#32 ||| sqobjectRefCounted
  | .userpointer => 0x00000800#32
  | .thread => 0x00001000#32 ||| sqobjectRefCounted
  | .funcproto => 0x00002000#32 ||| sqobjectRefCounted
  | .sqclass => 0x00004000#32 ||| sqobjectRefCounted
  | .sqinstance => 0x00008000#32 ||| sqobjectRefCounted ||| sqobjectDelegable
  | .weakref => 0x00010000#32 ||| sqobjectRefCounted
  | .outer => 0x00020000#32 ||| sqobjectRefCounted

/-- `sq_type` -/
def SQObject.sqType : SQObject → BitVec 32
  | .null => otNull
  | .integer _ => otInteger
  | .float _ => otFloat
  | .bool _ => otBool
  | .string _ => otString
  | .ref t _ => t.typeWord

/-- `is_delegable` -/
def SQObject.isDelegable (o : SQObject) : Bool :=
  o.sqType &&& sqobjectDelegable ≠ 0#32

/-- `sq_isnumeric` -/
def SQObject.isNumeric (o : SQObject) : Bool :=
  o.sqType &&& sqobjectNumeric ≠ 0#32

/-- `IdType2Name` -/
def RefType.name : RefType → String
  | .table => "table"
  | .array => "array"
  | .generator => "generator"
  | .closure | .nativeclosure | .funcproto => "function"
  | .userdata | .userpointer => "userdata"
  | .thread => "thread"
  | .sqclass => "class"
  | .sqinstance => "instance"
  | .weakref => "weakref"
  | .outer => "outer"

/-- `GetTypeName` -/
def SQObject.getTypeName : SQObject → String
  | .null => "null"
  | .integer _ => "integer"
  | .float _ => "float"
  | .bool _ => "bool"
  | .string _ => "string"
  | .ref t _ => t.name

/-! ## Reading the value word -/

/-- `_integer`, on a type that `_ARITH_` applies it to: the value word of null is zero. -/
def SQObject.toSQInteger : SQObject → SQInteger
  | .integer i => i
  | _ => 0

/-- `tofloat`, on a type that `_ARITH_` applies it to: the value word of null reads as `0.0`. -/
def SQObject.toSQFloat : SQObject → SQFloat
  | .integer i => .ofInt i.toInt
  | .float f => f
  | _ => .ofInt 0

/-- The bytes of an ASCII text. -/
def asciiBytes (s : String) : List UInt8 :=
  s.toList.map fun c => UInt8.ofNat c.toNat

/-- `_PRINT_INT_FMT` -/
def printInt (i : SQInteger) : List UInt8 :=
  let digits (n : Nat) : List UInt8 := (Nat.toDigits 10 n).map fun c => UInt8.ofNat c.toNat
  match i.toInt with
  | .ofNat n => digits n
  | .negSucc n => UInt8.ofNat '-'.toNat :: digits (n + 1)

/-- Only two integers make an integer operation, and only numbers and null a float one. -/
theorem RefType.typeWord_or_otInteger (t : RefType) :
    t.typeWord ||| otInteger ≠ otInteger ∧ t.typeWord ||| otInteger ≠ otFloat ||| otInteger ∧
      t.typeWord ||| otInteger ≠ otFloat ∧ (t.typeWord ||| otInteger) &&& rtString = 0#32 := by
  cases t <;> decide

end Quirrel.Vm
