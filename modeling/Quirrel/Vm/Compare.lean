import Quirrel.Lib.FloatOrder
import Quirrel.Vm.Arith
import Quirrel.Vm.Exec

/-!
# Comparison

`SQVM::ObjCmp` with its variants for a literal number, and the opcodes that use them or
`SQVM::IsEqual`. An integer and a float compare as floats; two integers compare exactly, so an integer may
compare equal to a float that compares equal to another integer.
-/

set_option autoImplicit false

namespace Quirrel.Vm

open Quirrel.Lib

/-! ## `SQVM::ObjCmp` -/

/-- What a comparison ends in. `error` is `Raise_CompareError` of its two arguments, `assertion` a
comparison opcode with no such operator. -/
inductive CmpResult (α : Type) where
  | value (r : α)
  | error (o1 o2 : SQObject)
  | callMetaMethod (closure o1 o2 : SQObject)
  | assertion
  deriving DecidableEq

/-- The rest of a comparison, on its result. -/
def CmpResult.map {α β : Type} (f : α → CmpResult β) : CmpResult α → CmpResult β
  | .value r => f r
  | .error o1 o2 => .error o1 o2
  | .callMetaMethod closure o1 o2 => .callMetaMethod closure o1 o2
  | .assertion => .assertion

/-- `strcmp`, on the bytes before the terminator that follows every string. Of a positive or a
negative result only the sign is specified. -/
def strcmp : List UInt8 → List UInt8 → Int
  | [], [] => 0
  | [], b :: _ => -b.toNat
  | a :: _, [] => a.toNat
  | a :: as, b :: bs =>
    if a = b then if a = 0 then 0 else strcmp as bs else a.toNat - b.toNat

/-- The order of two floats as `ObjCmp` finds it. -/
def cmpFloat (f1 f2 : SQFloat) : Int :=
  if (f1 == f2) = true then 0 else if f1 < f2 then -1 else 1

/-- The conversion of an integer that meets a float. -/
def intToFloat (i : SQInteger) : SQFloat := .ofInt i.toInt

variable (vm : VmOps)

/-- Different values of one type. -/
def VmOps.objCmpSameType (o1 o2 : SQObject) : CmpResult Int :=
  match o1, o2 with
  | .string s1, .string s2 => .value (strcmp s1 s2)
  | .integer i1, .integer i2 => .value (if i1.slt i2 then -1 else 1)
  | .bool b1, .bool b2 => .value (if b1.toNat < b2.toNat then -1 else 1)
  | .float f1, .float f2 =>
    .value (if f1 < f2 then -1 else if (f1 == f2) = true then 0 else 1)
  | o1, o2 =>
    match vm.metaMethodOf o1 .cmp with
    | some closure => .callMetaMethod closure o1 o2
    | none => .error o1 o2

/-- Values of two types. -/
def objCmpOtherType (o1 o2 : SQObject) : CmpResult Int :=
  match o1, o2 with
  | .integer i1, .float f2 => .value (cmpFloat (intToFloat i1) f2)
  | .float f1, .integer i2 => .value (cmpFloat f1 (intToFloat i2))
  | .null, _ => .value (-1)
  | _, .null => .value 1
  | o1, o2 => .error o1 o2

/-- `SQVM::ObjCmp`. Values of one type are first compared as words. -/
def VmOps.objCmp (o1 o2 : SQObject) : CmpResult Int :=
  if o1.sqType = o2.sqType then
    if o1 = o2 then .value 0 else vm.objCmpSameType o1 o2
  else objCmpOtherType o1 o2

/-- `SQVM::ObjCmpI` -/
def objCmpI (o1 : SQObject) (i2 : SQInteger) : CmpResult Int :=
  match o1 with
  | .integer i1 => .value (if i1 = i2 then 0 else if i1.slt i2 then -1 else 1)
  | .float f1 => .value (cmpFloat f1 (intToFloat i2))
  | .null => .value (-1)
  | o1 => .error o1 (.integer i2)

/-- `SQVM::ObjCmpF` -/
def objCmpF (o1 : SQObject) (f2 : SQFloat) : CmpResult Int :=
  match o1 with
  | .float f1 => .value (cmpFloat f1 f2)
  | .integer i1 => .value (cmpFloat (intToFloat i1) f2)
  | .null => .value (-1)
  | o1 => .error o1 (.float f2)

/-! ## Opcodes -/

/-- `CmpOP` -/
inductive CmpOP where
  | g
  | ge
  | l
  | le
  | threeWay
  deriving DecidableEq

/-- The operator of a code, for which `CMP_OP` and its variants have a case. -/
def CmpOP.ofCode (code : BitVec 8) : Option CmpOP :=
  match code.toNat with
  | 0 => some .g
  | 2 => some .ge
  | 3 => some .l
  | 4 => some .le
  | 5 => some .threeWay
  | _ => none

/-- The switch that `CMP_OP_RES`, `CMP_OP_RESI` and `CMP_OP_RESF` share, into an `int` that holds every
result of `ObjCmp` without a metamethod. -/
def cmpOpInt (code : BitVec 8) (r : Int) : CmpResult Int :=
  match CmpOP.ofCode code with
  | some .g => .value (if r > 0 then 1 else 0)
  | some .ge => .value (if r ≥ 0 then 1 else 0)
  | some .l => .value (if r < 0 then 1 else 0)
  | some .le => .value (if r ≤ 0 then 1 else 0)
  | some .threeWay => .value r
  | none => .assertion

/-- Whether a comparing jump is taken: `bool(r)` against the flag above the operator's code. -/
def jumpTaken (arg3 : BitVec 8) (r : Int) : CmpResult Bool :=
  .value (BitVec.ofNat 8 (decide (r ≠ 0)).toNat = arg3 >>> 3)

/-- `_OP_JCMP` -/
def opJcmp (arg3 : BitVec 8) (o1 o2 : SQObject) : CmpResult Bool :=
  ((vm.objCmp o1 o2).map (cmpOpInt (arg3 &&& 7))).map (jumpTaken arg3)

/-- `_OP_JCMPK` -/
def opJcmpk (arg3 : BitVec 8) (o1 : SQObject) (literals : List SQObject) (arg0 : Nat) :
    CmpResult Bool :=
  ((vm.objCmp o1 (literals.getD arg0 .null)).map (cmpOpInt (arg3 &&& 7))).map (jumpTaken arg3)

/-- `_OP_JCMPI`; the operand is a signed 32-bit word. -/
def opJcmpi (arg3 : BitVec 8) (o1 : SQObject) (sarg1 : BitVec 32) : CmpResult Bool :=
  ((objCmpI o1 (sarg1.signExtend 64)).map (cmpOpInt (arg3 &&& 7))).map (jumpTaken arg3)

/-- `_OP_JCMPF` -/
def opJcmpf (arg3 : BitVec 8) (o1 : SQObject) (farg1 : SQFloat) : CmpResult Bool :=
  ((objCmpF o1 farg1).map (cmpOpInt (arg3 &&& 7))).map (jumpTaken arg3)

/-- `_OP_EQ` -/
def opEq (o1 o2 : SQObject) : SQObject := .bool (isEqual o1 o2)

end Quirrel.Vm
