import Quirrel.Vm.Object
import Quirrel.Serialization.Basic

/-!
# `SQStreamSerializer::deserializeObject`

The reader of the records. It pushes what it reads on the stack of the machine and asks the machine
for classes, for new instances and for calls of `__setstate` (`DeserializerVm`). Besides a value and
an error it can end in a misuse of the machine: an object that is no class taken for one, an index
out of range, or a stack slot beyond the ones that are reserved for native code. No check of the
source stands before the first and the last of these.
-/

set_option autoImplicit false

namespace Quirrel.Serialization

open Quirrel.Lib Quirrel.Vm

/-! ## State and results -/

/-- `SQ_DESER_MAX_OBJECT_SIZE` -/
def deserMaxObjectSize : Nat := 80 * 1024 * 1024

/-- `STACK_GROW_THRESHOLD` -/
def stackGrowThreshold : Nat := 256 * 2

/-- What the deserializer does that is outside the language: a class taken of what is none, an
index past a vector, a stack that runs over. -/
inductive Misuse where
  | notAClass
  | indexOutOfRange
  | stackOverflow
  deriving DecidableEq

/-- Why deserialization stops without a value. -/
inductive Stop where
  | error (errorString : String)
  | misuse (what : Misuse)
  | outOfFuel
  deriving DecidableEq

/-- What was passed as the available classes. -/
inductive AvailableClasses where
  | null
  | table
  | other
  deriving DecidableEq

/-- What the deserializer asks of the machine: the available classes and calls of constructors and
of `__setstate`. -/
structure DeserializerVm (τ : Type) where
  available : τ → AvailableClasses
  /-- `Get` on the table of available classes. -/
  lookup : τ → List UInt8 → Option SQObject
  constructorOf : τ → Nat → Option Callable
  /-- The `__setstate` of a class. -/
  setstate : τ → Nat → Option Callable
  instantiate : τ → Nat → τ × Option Value
  /-- The call of `__setstate` on an instance and its state, with or without the available
  classes, and whether it succeeds. -/
  callSetstate : τ → Nat → Value → Value → Bool → τ × Bool

/-- The bytes still to be read, and the strings and classes read so far. -/
structure Deserializer (τ : Type) where
  input : List UInt8
  stringList : List (List UInt8)
  classList : List SQObject
  vm : τ

variable {τ : Type}

/-- The error of every read past the end. -/
def unexpectedEndOfData : Stop := .error "Unexpected end of data during deserialization"

/-- `stream->Read` of a word of `n` bytes. -/
def readWord (n : Nat) (d : Deserializer τ) : Except Stop (Nat × Deserializer τ) :=
  match readLE n d.input with
  | some (v, rest) => .ok (v, { d with input := rest })
  | none => .error unexpectedEndOfData

/-- `stream->Read` of `n` characters. -/
def readChars (n : Nat) (d : Deserializer τ) : Except Stop (List UInt8 × Deserializer τ) :=
  match readExact n d.input with
  | some (s, rest) => .ok (s, { d with input := rest })
  | none => .error unexpectedEndOfData

/-- Slots of the stack above the ones that were in use when the call began. -/
def useSlots (slots : Nat) : Except Stop Unit :=
  if slots ≤ stackGrowThreshold then .ok () else .error (.misuse .stackOverflow)

/-! ## Scalars -/

/-- The word of the nearest `float` of a `double`. -/
def narrow (w : UInt64) : UInt32 :=
  .ofBitVec <| Float.Model.UnpackedFloat.pack .binary32 <|
    match Float.Model.UnpackedFloat.unpack .binary64 w.toBitVec with
    | .finite s m e _ => Float.Model.UnpackedFloat.round .binary32 s m e
    | x => x

/-- A signed integer of `n` bytes. -/
def readInteger (n : Nat) (d : Deserializer τ) : Except Stop (Value × Deserializer τ) := do
  let (w, d) ← readWord n d
  return (.integer ((BitVec.ofNat (8 * n) w).signExtend 64), d)

/-- The integer case of `deserialize`, by the low bits of the tag. -/
def deserializeInteger (v : Nat) (d : Deserializer τ) : Except Stop (Value × Deserializer τ) :=
  match v with
  | 0 => .ok (.integer (-1), d)
  | 1 => .ok (.integer 0, d)
  | 2 => .ok (.integer 1, d)
  | 3 => .ok (.integer 2, d)
  | 4 => readInteger 1 d
  | 5 => readInteger 2 d
  | 6 => readInteger 4 d
  | 7 => readInteger 8 d
  | _ => .error (.error "Invalid integer type during deserialization")

/-- The float case of `deserialize`. -/
def deserializeFloat (v : Nat) (d : Deserializer τ) : Except Stop (Value × Deserializer τ) :=
  match v with
  | 0 => .ok (.float minusOne, d)
  | 1 => .ok (.float minusHalf, d)
  | 2 => .ok (.float zero, d)
  | 3 => .ok (.float half, d)
  | 4 => .ok (.float one, d)
  | 5 => .ok (.float two, d)
  | 6 => do
    let (w, d) ← readWord 4 d
    return (.float (.ofNat w), d)
  | 7 => do
    let (w, d) ← readWord 8 d
    return (.float (narrow (.ofNat w)), d)
  | _ => .error (.error "Invalid float type during deserialization")

/-- A string that is new in the stream, of which `n` bytes hold the length. -/
def readNewString (n : Nat) (d : Deserializer τ) : Except Stop (Value × Deserializer τ) := do
  let (len, d) ← readWord n d
  if deserMaxObjectSize ≤ len then throw (.error "String too large during deserialization")
  let (s, d) ← readChars len d
  return (.string s, { d with stringList := d.stringList ++ [s] })

/-- A reference to a string read before, of one of three widths. -/
def readBackRef (n : Nat) (d : Deserializer τ) : Except Stop (Value × Deserializer τ) := do
  let (index, d) ← readWord n d
  if d.stringList.length ≤ index then
    throw (.error "String index out of bounds during deserialization")
  match d.stringList[index]? with
  | some s => return (.string s, d)
  | none => throw (.misuse .indexOutOfRange)

/-- The string case of `deserialize`. -/
def deserializeString (v : Nat) (d : Deserializer τ) : Except Stop (Value × Deserializer τ) :=
  match v with
  | 0 => .ok (.string [], d)
  | 1 => readNewString 1 d
  | 2 => readNewString 2 d
  | 3 => readNewString 4 d
  | 4 => readBackRef 1 d
  | 5 => readBackRef 2 d
  | 6 => readBackRef 4 d
  | _ => .error (.error "Invalid string type during deserialization")

/-! ## Containers -/

/-- The head of an array or a table. -/
def readSize (invalid tooLarge : String) (v : Nat) (d : Deserializer τ) :
    Except Stop (Nat × Deserializer τ) := do
  let (size, d) ← match v with
    | 0 => .ok (0, d)
    | 1 => readWord 1 d
    | 2 => readWord 4 d
    | _ => .error (.error invalid)
  if deserMaxObjectSize ≤ size then throw (.error tooLarge)
  return (size, d)

/-- Whether two keys are the same key of a table; new containers are never. -/
def sameKey : Value → Value → Bool
  | .null, .null => true
  | .bool a, .bool b => a == b
  | .integer a, .integer b => a == b
  | .float a, .float b => a == b
  | .string a, .string b => a == b
  | .sqinstance a, .sqinstance b => a == b
  | _, _ => false

/-- `sq_rawset` on a table, whose entries stand in the order in which they were made. -/
def rawset (entries : List (Value × Value)) (key val : Value) : List (Value × Value) :=
  if entries.any fun e => sameKey e.1 key then
    entries.map fun e => if sameKey e.1 key then (e.1, val) else e
  else entries ++ [(key, val)]

/-- So many values, one after the other. -/
def deserializeAll (f : Deserializer τ → Except Stop (Value × Deserializer τ)) :
    Nat → Deserializer τ → Except Stop (List Value × Deserializer τ)
  | 0, d => .ok ([], d)
  | n + 1, d => do
    let (v, d) ← f d
    let (vs, d) ← deserializeAll f n d
    return (v :: vs, d)

/-- The entries of a table, keys read by `f` and values by `g`. -/
def deserializeEntries (f g : Deserializer τ → Except Stop (Value × Deserializer τ)) :
    Nat → List (Value × Value) → Deserializer τ →
      Except Stop (List (Value × Value) × Deserializer τ)
  | 0, entries, d => .ok (entries, d)
  | n + 1, entries, d => do
    let (key, d) ← f d
    let (val, d) ← g d
    deserializeEntries f g n (rawset entries key val) d

/-! ## Instances -/

/-- `isClassConstructorValid`: the constructor must accept a call without arguments. -/
def isClassConstructorValid : Callable → Except Stop Unit
  | .closure nparameters ndefaultparams varparams =>
    let paramssize := if varparams then nparameters - 1 else nparameters
    if paramssize ≠ 1 ∧
        ¬ (ndefaultparams ≠ 0 ∧ 1 < paramssize ∧ paramssize - 1 ≤ ndefaultparams) then
      .error (.error
        "Class constructor must accept call with all default arguments during deserialization")
    else .ok ()
  | .nativeclosure nparamscheck =>
    if 1 < nparamscheck then
      .error (.error
        "Class constructor must accept call with all default arguments during deserialization")
    else .ok ()
  | .other =>
    .error (.error
      "Class constructor must be a closure or native closure during deserialization")

/-- `_class(classObj)` -/
def asClass : SQObject → Except Stop Nat
  | .ref .sqclass addr => .ok addr
  | _ => .error (.misuse .notAClass)

/-- A class that is new in the stream; `assert(sq_isclass(classObj))` checks nothing in a release
build. -/
def readNewClass (vm : DeserializerVm τ) (d : Deserializer τ) :
    Except Stop (Nat × Deserializer τ) := do
  let (len, d) ← readWord 1 d
  let (name, d) ← readChars len d
  if vm.available d.vm ≠ .table then
    throw (.error
      "Instance found during deserialization, but available classes not set or not a table")
  match vm.lookup d.vm name with
  | none => throw (.error "Class not found in available classes during deserialization")
  | some classObj =>
    let d := { d with classList := d.classList ++ [classObj] }
    let cls ← asClass classObj
    match vm.constructorOf d.vm cls with
    | some constructor => isClassConstructorValid constructor
    | none => pure ()
    return (d.classList.length - 1, d)

/-- The index of a class read before. -/
def readClassRef (v : Nat) (d : Deserializer τ) : Except Stop (Nat × Deserializer τ) := do
  let (restOfIndex, d) ← readWord 1 d
  let index := v * 256 + restOfIndex
  if d.classList.length ≤ index then
    throw (.error "Class index out of bounds during deserialization")
  return (index, d)

/-- The class of an instance: a new name or an index. -/
def readClass (vm : DeserializerVm τ) (v : Nat) (d : Deserializer τ) :
    Except Stop (Nat × Deserializer τ) :=
  if v = 0x0F then readNewClass vm d else readClassRef v d

/-- The class of an instance. -/
def findClass (vm : DeserializerVm τ) (v : Nat) (d : Deserializer τ) :
    Except Stop (Nat × Deserializer τ) := do
  let (index, d) ← readClass vm v d
  match d.classList[index]? with
  | none => throw (.misuse .indexOutOfRange)
  | some classObj =>
    let cls ← asClass classObj
    return (cls, d)

/-- The new instance and the call of its `__setstate`, with the state that `f` reads. -/
def deserializeState (vm : DeserializerVm τ)
    (f : Deserializer τ → Except Stop (Value × Deserializer τ)) (top cls : Nat)
    (closure : Callable) (d : Deserializer τ) : Except Stop (Value × Deserializer τ) := do
  -- the class and the environment of its constructor
  useSlots (top + 2)
  match vm.instantiate d.vm cls with
  | (_, none) => throw (.error "Failed to instantiate class during deserialization")
  | (st, some inst) =>
    -- the instance, the closure and the instance again
    useSlots (top + 3)
    let (state, d) ← f { d with vm := st }
    if 2 < getCountOfParams closure then useSlots (top + 5)
    match vm.callSetstate d.vm cls inst state (decide (2 < getCountOfParams closure)) with
    | (_, false) => throw (.error "Failed to call __setstate method")
    | (st, true) => return (inst, { d with vm := st })

/-- `f` reads the state of the instance. -/
def deserializeInstance (vm : DeserializerVm τ)
    (f : Deserializer τ → Except Stop (Value × Deserializer τ)) (v top : Nat)
    (d : Deserializer τ) : Except Stop (Value × Deserializer τ) := do
  let (cls, d) ← findClass vm v d
  match vm.setstate d.vm cls with
  | none => throw (.error "Class must have __setstate method for deserialization")
  | some closure =>
    if closure.isFunction then deserializeState vm f top cls closure d
    else throw (.error "Class method __setstate must be a closure")

/-! ## Objects -/

/-- `deserializeObject`, which pushes its value on a stack of `top` slots. -/
def deserializeObject (vm : DeserializerVm τ) :
    Nat → Nat → Deserializer τ → Except Stop (Value × Deserializer τ)
  | 0, _, _ => .error .outOfFuel
  | fuel + 1, top, d => do
    let (t, d) ← readWord 1 d
    let v := t % 16
    match t / 16 with
    | 0 =>
      useSlots (top + 1)
      return (.null, d)
    | 1 =>
      useSlots (top + 1)
      return (.bool (v != 0), d)
    | 2 =>
      let r ← deserializeInteger v d
      useSlots (top + 1)
      return r
    | 3 =>
      let r ← deserializeFloat v d
      useSlots (top + 1)
      return r
    | 4 =>
      let r ← deserializeString v d
      useSlots (top + 1)
      return r
    | 5 =>
      let (size, d) ← readSize "Invalid array type during deserialization"
        "Array too large during deserialization" v d
      useSlots (top + 1)
      -- the index of an element lies between the array and the element
      if size ≠ 0 then useSlots (top + 2)
      let (elems, d) ← deserializeAll (deserializeObject vm fuel (top + 2)) size d
      return (.array elems, d)
    | 6 =>
      let (size, d) ← readSize "Invalid table type during deserialization"
        "Table too large during deserialization" v d
      useSlots (top + 1)
      let (entries, d) ← deserializeEntries (deserializeObject vm fuel (top + 1))
        (deserializeObject vm fuel (top + 2)) size [] d
      return (.table entries, d)
    | 7 => deserializeInstance vm (deserializeObject vm fuel (top + 3)) v top d
    | _ => .error (.error "Unsupported object type during deserialization")

/-- The deserializer before the first byte. -/
def Deserializer.initial (st : τ) (input : List UInt8) : Deserializer τ where
  input := input
  stringList := []
  classList := []
  vm := st

/-- `deserialize`, where the calls of `deserializeObject` nest at most `levels` deep. -/
def deserializeWithin (vm : DeserializerVm τ) (levels : Nat) (st : τ) (input : List UInt8) :
    Except Stop (Value × Deserializer τ) := do
  let (start, d) ← readWord 1 (Deserializer.initial st input)
  if start ≠ startMarker.toNat then
    throw (.error "Invalid start marker during deserialization")
  let (v, d) ← deserializeObject vm levels 0 d
  let (stop, d) ← readWord 1 d
  if stop ≠ endMarker.toNat then
    throw (.error "Invalid end marker during deserialization")
  return (v, d)

/-- `deserialize`; every call of `deserializeObject` takes a byte. -/
def deserialize (vm : DeserializerVm τ) (st : τ) (input : List UInt8) :
    Except Stop (Value × Deserializer τ) :=
  deserializeWithin vm input.length st input

end Quirrel.Serialization
