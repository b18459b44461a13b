import Quirrel.Class.Basic
import Quirrel.Lib.ByteMemory
import Quirrel.Lib.LittleEndian

/-!
# Values in native fields

`GetNativeField` and `SetNativeField` of `sqclass.h` on the bytes of the inline userdata. A number
that the field's type cannot hold is converted, so a field does not always read as the value that was
stored (`nativeOps_get_set`); a store leaves every native field that shares no byte with it
(`nativeOps_get_set_of_apart`).
-/

set_option autoImplicit false

namespace Quirrel.Class

open Quirrel.Lib

universe u v

variable {K : Type u} {V : Type v}

/-! ## Conversions -/

/-- The values that a native field can hold. -/
inductive Scalar where
  | integer (n : Int64)
  | float (f : Float32.Model)
  | bool (b : Bool)
  deriving DecidableEq

/-- `(double)_float(val)` -/
def doubleOfFloat (f : Float32.Model) : Float.Model := Float.Model.pack f.unpack

/-- `(SQFloat)*(const double *)p` -/
def floatOfDouble (d : Float.Model) : Float32.Model :=
  match d.unpack with
  | .finite s m e _ => .pack (.round .binary32 s m e)
  | d => .pack d

/-! ## Bytes of a field -/

/-- The bytes that `SetNativeField` writes for a value; `none` on a type mismatch. A float out of the
range of the integer type, for which the cast is undefined, saturates. The `switch` has no other
case, so a field of another type takes every value and writes nothing. -/
def encodeNative (type : Nat) (s : Scalar) : Option (List UInt8) :=
  match type, s with
  | 0, .float f => some (toLE 4 f.toBits.toNat)
  | 0, .integer n => some (toLE 4 (Float32.Model.ofInt64 n).toBits.toNat)
  | 0, .bool _ => none
  | 1, .float f => some (toLE 8 (doubleOfFloat f).toBits.toNat)
  | 1, .integer n => some (toLE 8 (Float.Model.ofInt64 n).toBits.toNat)
  | 1, .bool _ => none
  | 2, .integer n => some (toLE 4 n.toInt32.toUInt32.toNat)
  | 2, .float f => some (toLE 4 f.toInt32.toUInt32.toNat)
  | 2, .bool _ => none
  | 3, .integer n => some (toLE 8 n.toUInt64.toNat)
  | 3, .float f => some (toLE 8 f.toInt64.toUInt64.toNat)
  | 3, .bool _ => none
  | 4, .bool b => some (toLE 1 b.toNat)
  | 4, .integer n => some (toLE 1 (n != 0).toNat)
  | 4, .float _ => none
  | _, _ => some []

/-- What `GetNativeField` reads; `none` for a type that `RegisterNativeField` refuses. -/
def decodeNative (type : Nat) (bs : List UInt8) : Option Scalar :=
  match type with
  | 0 => some (.float (.ofBits (UInt32.ofNat (ofLE bs))))
  | 1 => some (.float (floatOfDouble (.ofBits (UInt64.ofNat (ofLE bs)))))
  | 2 => some (.integer (UInt32.ofNat (ofLE bs)).toInt32.toInt64)
  | 3 => some (.integer (UInt64.ofNat (ofLE bs)).toInt64)
  | 4 => some (.bool (ofLE bs != 0))
  | _ => none

/-- The number of bytes of the field. -/
def NativeFieldDesc.size (desc : NativeFieldDesc) : Nat := typeSizes.getD desc.type 0

theorem length_encodeNative {type : Nat} {s : Scalar} {bs : List UInt8}
    (h : encodeNative type s = some bs) : bs.length = typeSizes.getD type 0 := by
  match type, s, h with
  | 0, .float _, rfl | 0, .integer _, rfl | 1, .float _, rfl | 1, .integer _, rfl
  | 2, .float _, rfl | 2, .integer _, rfl | 3, .float _, rfl | 3, .integer _, rfl
  | 4, .bool _, rfl | 4, .integer _, rfl => exact length_toLE _ _
  | n + 5, s, h =>
    cases s <;> cases h <;> rfl

/-! ## The field operations of an instance -/

/-- The scalar values among all values; `toScalar` is `none` for any other type. -/
structure ScalarOps (V : Type v) where
  toScalar : V → Option Scalar
  ofScalar : Scalar → V

variable (scalar : ScalarOps V) (base : ObjectOps K V ByteMemory)

/-- The bytes that a value leaves in a field. -/
def NativeFieldDesc.encode (desc : NativeFieldDesc) (val : V) : Option (List UInt8) :=
  match scalar.toScalar val with
  | some s => encodeNative desc.type s
  | none => if desc.type < typeSizes.length then none else some []

/-- The value that the bytes of a field stand for. -/
def NativeFieldDesc.decode (desc : NativeFieldDesc) (bs : List UInt8) : V :=
  match decodeNative desc.type bs with
  | some s => scalar.ofScalar s
  | none => base.null

theorem NativeFieldDesc.length_encode {desc : NativeFieldDesc} {val : V} {bs : List UInt8}
    (h : desc.encode scalar val = some bs) : bs.length = desc.size := by
  simp only [NativeFieldDesc.encode] at h
  split at h
  · exact length_encodeNative h
  · split at h
    · cases h
    · rename_i htype
      cases h
      rw [NativeFieldDesc.size, List.getD_eq_default _ _ (Nat.le_of_not_lt htype)]
      rfl

/-- The operations on values, with the native fields in the bytes of the userdata. -/
def nativeOps : ObjectOps K V ByteMemory :=
  { base with
    getNativeField := fun desc ud => desc.decode scalar base (readBytes ud desc.offset desc.size)
    setNativeField := fun desc ud val => (desc.encode scalar val).map (writeBytes ud desc.offset) }

/-- The fields share no byte. -/
def NativeFieldDesc.Apart (d e : NativeFieldDesc) : Prop :=
  RangesApart d.offset d.size e.offset e.size

theorem nativeOps_get_set {desc : NativeFieldDesc} {ud : ByteMemory} {val : V} {bs : List UInt8}
    (h : desc.encode scalar val = some bs) :
    (nativeOps scalar base).getNativeField desc (writeBytes ud desc.offset bs) =
      desc.decode scalar base bs := by
  show desc.decode scalar base (readBytes (writeBytes ud desc.offset bs) desc.offset desc.size) = _
  rw [← desc.length_encode scalar h, readBytes_writeBytes]

theorem nativeOps_get_set_of_apart {desc e : NativeFieldDesc} {ud : ByteMemory} {val : V}
    {bs : List UInt8} (h : desc.encode scalar val = some bs) (hapart : desc.Apart e) :
    (nativeOps scalar base).getNativeField e (writeBytes ud desc.offset bs) =
      (nativeOps scalar base).getNativeField e ud := by
  show e.decode scalar base (readBytes (writeBytes ud desc.offset bs) e.offset e.size) = _
  rw [readBytes_writeBytes_of_apart]
  · rfl
  · rw [desc.length_encode scalar h]
    exact hapart

end Quirrel.Class
