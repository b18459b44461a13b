import Mathlib.Logic.Function.Basic
import Quirrel.Lib.LittleEndian
import Quirrel.Lib.FloatWord

/-!
# `SQStreamSerializer::serializeObject`

Values as trees, the records that the serializer writes, and the serializer itself. A record is what
one visit of a scalar, of the head of a container or of a class reference writes. What the
serializer asks of the virtual machine (the addresses of strings, the available classes, calls of
`__getstate`) is a parameter, `SerializerVm`: a call may change the machine, and popping the state
object may free it together with its strings.
-/

set_option autoImplicit false

namespace Quirrel.Serialization

open Quirrel.Lib

/-! ## Values -/

/-- An object together with what it contains. A float is its word, an instance is its address, and
`unsupported` is any other object. -/
inductive Value where
  | null
  | bool (b : Bool)
  | integer (i : BitVec 64)
  | float (word : UInt32)
  | string (s : List UInt8)
  | array (elems : List Value)
  | table (entries : List (Value × Value))
  | sqinstance (addr : Nat)
  | unsupported

/-- A function as an object that is called. -/
inductive Callable where
  | closure (nparameters ndefaultparams : Int) (varparams : Bool)
  | nativeclosure (nparamscheck : Int)
  | other
  deriving DecidableEq

/-- `sq_isclosure(obj) || sq_isnativeclosure(obj)` -/
def Callable.isFunction : Callable → Bool
  | .closure .. | .nativeclosure _ => true
  | .other => false

/-- `getCountOfParams`; -1 for what is no closure. -/
def getCountOfParams : Callable → Int
  | .closure nparameters _ _ => nparameters
  | .nativeclosure nparamscheck => nparamscheck
  | .other => -1

/-! ## Records -/

/-- `SQ_SERIALIZER_TYPE_NULL` -/
def tpNull : UInt8 := 0x00
/-- The tag of a boolean; its low bit is the value. -/
def tpBool : UInt8 := 0x10
/-- The tag of an integer; the low bits are a small value or the width. -/
def tpInteger : UInt8 := 0x20
/-- The tag of a float; the low bits are a common value or say that a word follows. -/
def tpFloat : UInt8 := 0x30
/-- The tag of a string; the low bits tell an empty string, a new one and a back reference. -/
def tpString : UInt8 := 0x40
/-- The tag of an array; the low bits are the width of its size. -/
def tpArray : UInt8 := 0x50
/-- The tag of a table; the low bits are the width of its size. -/
def tpTable : UInt8 := 0x60
/-- The tag of an instance; the low bits are the high bits of a class index, or all ones before a
new class name. -/
def tpInstance : UInt8 := 0x70

/-- The first byte of every stream. -/
def startMarker : UInt8 := 0xEA

/-- The last byte of every stream. -/
def endMarker : UInt8 := 0xFA

/-- `MAX_DEPTH` -/
def maxDepth : Nat := 200

/-- A string record also names the address of its string, and a back-reference the string that it
stands for; neither is written. -/
inductive Token where
  | null
  | bool (b : Bool)
  | integer (i : BitVec 64)
  | float (word : UInt32)
  | emptyString
  | newString (addr : Nat) (s : List UInt8)
  | backRef (addr : Nat) (index : UInt32) (s : List UInt8)
  | array (size : Nat)
  | table (size : Nat)
  | newClass (name : List UInt8)
  | classRef (index : Nat)

/-- The bytes of an integer: four values have a byte of their own, the others take the least of
four widths. -/
def encodeInteger (iv : BitVec 64) : List UInt8 :=
  if -1 ≤ iv.toInt ∧ iv.toInt ≤ 2 then [tpInteger ||| UInt8.ofNat (iv.toInt + 1).toNat]
  else if -2 ^ 7 ≤ iv.toInt ∧ iv.toInt < 2 ^ 7 then (tpInteger ||| 4) :: toLE 1 iv.toNat
  else if -2 ^ 15 ≤ iv.toInt ∧ iv.toInt < 2 ^ 15 then (tpInteger ||| 5) :: toLE 2 iv.toNat
  else if -2 ^ 31 ≤ iv.toInt ∧ iv.toInt < 2 ^ 31 then (tpInteger ||| 6) :: toLE 4 iv.toNat
  else (tpInteger ||| 7) :: toLE 8 iv.toNat

/-- The words of the floats that have a record without a body. -/
def minusOne : UInt32 := 0xBF800000
/-- The word of `-0.5f`. -/
def minusHalf : UInt32 := 0xBF000000
/-- The word of `0.0f`. -/
def zero : UInt32 := 0x00000000
/-- The word of `0.5f`. -/
def half : UInt32 := 0x3F000000
/-- The word of `1.0f`. -/
def one : UInt32 := 0x3F800000
/-- The word of `2.0f`. -/
def two : UInt32 := 0x40000000

/-- The bytes of a float: six values have a byte of their own. -/
def encodeFloat (fv : UInt32) : List UInt8 :=
  if wordEq fv minusOne then [tpFloat]
  else if wordEq fv minusHalf then [tpFloat ||| 1]
  else if wordEq fv zero then [tpFloat ||| 2]
  else if wordEq fv half then [tpFloat ||| 3]
  else if wordEq fv one then [tpFloat ||| 4]
  else if wordEq fv two then [tpFloat ||| 5]
  else (tpFloat ||| 6) :: toLE 4 fv.toNat

/-- The bytes of a string that was not written before: the length in the least of three widths,
then the text. -/
def encodeNewString (s : List UInt8) : List UInt8 :=
  if s.length ≤ 0xFF then (tpString ||| 1) :: toLE 1 s.length ++ s
  else if s.length ≤ 0xFFFF then (tpString ||| 2) :: toLE 2 s.length ++ s
  else (tpString ||| 3) :: toLE 4 s.length ++ s

/-- The bytes of a reference to a string written before. -/
def encodeBackRef (index : UInt32) : List UInt8 :=
  if index.toNat ≤ 0xFF then (tpString ||| 4) :: toLE 1 index.toNat
  else if index.toNat ≤ 0xFFFF then (tpString ||| 5) :: toLE 2 index.toNat
  else (tpString ||| 6) :: toLE 4 index.toNat

/-- The head of an array or a table. -/
def encodeSize (tp : UInt8) (size : Nat) : List UInt8 :=
  if size = 0 then [tp]
  else if size ≤ 0xFF then (tp ||| 1) :: toLE 1 size
  else (tp ||| 2) :: toLE 4 size

/-- The bytes of a token. -/
def Token.encode : Token → List UInt8
  | .null => [tpNull ||| 1]
  | .bool b => [tpBool ||| if b then 1 else 0]
  | .integer i => encodeInteger i
  | .float word => encodeFloat word
  | .emptyString => [tpString]
  | .newString _ s => encodeNewString s
  | .backRef _ index _ => encodeBackRef index
  | .array size => encodeSize tpArray size
  | .table size => encodeSize tpTable size
  | .newClass name => (tpInstance ||| 0x0F) :: UInt8.ofNat name.length :: name
  | .classRef index => [tpInstance ||| UInt8.ofNat (index / 256 % 16), UInt8.ofNat index]

/-- The bytes of some records. -/
def encodeAll (tokens : List Token) : List UInt8 := tokens.flatMap Token.encode

/-! ## The serializer -/

/-- What the serializer asks of the machine: addresses of strings, available classes, and the
`__getstate` of an instance. -/
structure SerializerVm (σ : Type) where
  /-- The address of an interned string. -/
  address : σ → List UInt8 → Nat
  /-- The classes under string keys of the available classes with their names, in table order, or
  the error of `fillAvailableClassNamesOnDemand`. -/
  classNames : σ → Except String (List (Nat × List UInt8))
  classOf : σ → Nat → Nat
  /-- The `__getstate` of an instance. -/
  getstate : σ → Nat → Option Callable
  callGetstate : σ → Nat → Bool → σ × Option Value
  /-- Popping the closure and the state object. -/
  popState : σ → Value → σ

/-- The serializer with the tokens written so far and the tables of strings and classes. -/
structure Serializer (σ : Type) where
  vm : σ
  tokens : List Token
  stringTable : Nat → Option UInt32
  stringCounter : UInt32
  classTable : List (Nat × List UInt8)
  classIndex : Nat → Option Nat
  classCounter : Nat

/-- The serializer after a visit, and the error that ended it. -/
abbrev Visit (σ : Type) := Serializer σ × Option String

variable {σ : Type}

/-- Appends a token. -/
def Serializer.emit (s : Serializer σ) (t : Token) : Serializer σ :=
  { s with tokens := s.tokens ++ [t] }

/-- The string case of `serialize`: a string is written once and referred to afterwards. -/
def serializeString (vm : SerializerVm σ) (str : List UInt8) (s : Serializer σ) : Serializer σ :=
  if str = [] then s.emit .emptyString
  else
    match s.stringTable (vm.address s.vm str) with
    | none =>
      { s.emit (.newString (vm.address s.vm str) str) with
        stringTable := Function.update s.stringTable (vm.address s.vm str) (some s.stringCounter)
        stringCounter := s.stringCounter + 1 }
    | some index => s.emit (.backRef (vm.address s.vm str) index str)

/-- `strlen` -/
def cString (s : List UInt8) : List UInt8 := s.takeWhile (· != 0)

/-- The record for the class of an instance. -/
def serializeClass (cls : Nat) (name : List UInt8) (s : Serializer σ) : Visit σ :=
  match s.classIndex cls with
  | none =>
    if 0xFF < (cString name).length then (s, some "Class name too long for serialization")
    else
      let s' :=
        { s.emit (.newClass (cString name)) with
          classIndex := Function.update s.classIndex cls (some s.classCounter)
          classCounter := s.classCounter + 1 }
      if 0x0EFF ≤ s'.classCounter then
        (s', some "Too many different classes for serialization")
      else (s', none)
  | some index => (s.emit (.classRef index), none)

/-- `fillAvailableClassNamesOnDemand` -/
def fillAvailableClassNames (vm : SerializerVm σ) (s : Serializer σ) : Visit σ :=
  if s.classTable ≠ [] then (s, none)
  else
    match vm.classNames s.vm with
    | .ok names => ({ s with classTable := names }, none)
    | .error e => (s, some e)

/-- `classTable.find`: a class that stands under two keys has the last name. -/
def findClassName (classTable : List (Nat × List UInt8)) (cls : Nat) : Option (List UInt8) :=
  (classTable.reverse.find? fun p => p.1 == cls).map Prod.snd

/-- What follows a visit that has not failed. -/
def Visit.andThen (v : Visit σ) (k : Serializer σ → Visit σ) : Visit σ :=
  match v with
  | (s, none) => k s
  | (s, some e) => (s, some e)

/-- The values of a container, in order, up to the first error. -/
def serializeAll (f : Value → Serializer σ → Visit σ) : List Value → Serializer σ → Visit σ
  | [], s => (s, none)
  | v :: vs, s => (f v s).andThen (serializeAll f vs)

/-- The keys and the values of a table, as they are visited. -/
def flatEntries (entries : List (Value × Value)) : List Value :=
  entries.flatMap fun e => [e.1, e.2]

/-- The state object that `__getstate` returns, serialized by `f`. -/
def serializeState (vm : SerializerVm σ) (f : Value → Serializer σ → Visit σ) (addr : Nat)
    (closure : Callable) (s : Serializer σ) : Visit σ :=
  match vm.callGetstate s.vm addr (decide (1 < getCountOfParams closure)) with
  | (vm', none) => ({ s with vm := vm' }, some "Failed to call __getstate method")
  | (vm', some state) =>
    (f state { s with vm := vm' }).andThen fun s' =>
      ({ s' with vm := vm.popState s'.vm state }, none)

/-- The instance case of `serialize`: the class name and what `__getstate` returns. -/
def serializeInstance (vm : SerializerVm σ) (f : Value → Serializer σ → Visit σ) (addr : Nat)
    (s : Serializer σ) : Visit σ :=
  (fillAvailableClassNames vm s).andThen fun s =>
    match findClassName s.classTable (vm.classOf s.vm addr) with
    | none => (s, some "Unsupported class for serialization")
    | some name =>
      match vm.getstate s.vm addr with
      | none => (s, some "Instance must have __getstate method for serialization")
      | some closure =>
        if closure.isFunction then
          (serializeClass (vm.classOf s.vm addr) name s).andThen
            (serializeState vm f addr closure)
        else (s, some "Instance method __getstate must be a closure")

/-- `serializeObject`, where `remaining` is what `depth` leaves of `MAX_DEPTH`. -/
def serializeObject (vm : SerializerVm σ) : Nat → Value → Serializer σ → Visit σ
  | _, .null, s => (s.emit .null, none)
  | _, .bool b, s => (s.emit (.bool b), none)
  | _, .integer i, s => (s.emit (.integer i), none)
  | _, .float word, s => (s.emit (.float word), none)
  | _, .string str, s => (serializeString vm str s, none)
  | 0, .array _, s => (s, some "Maximum serialization depth exceeded")
  | n + 1, .array elems, s =>
    serializeAll (serializeObject vm n) elems (s.emit (.array elems.length))
  | 0, .table _, s => (s, some "Maximum serialization depth exceeded")
  | n + 1, .table entries, s =>
    serializeAll (serializeObject vm n) (flatEntries entries) (s.emit (.table entries.length))
  | 0, .sqinstance _, s => (s, some "Maximum serialization depth exceeded")
  | n + 1, .sqinstance addr, s => serializeInstance vm (serializeObject vm n) addr s
  | _, .unsupported, s => (s, some "Unsupported object type for serialization")

/-- The serializer at the start of a call. -/
def Serializer.initial (vm : σ) : Serializer σ where
  vm := vm
  tokens := []
  stringTable _ := none
  stringCounter := 0
  classTable := []
  classIndex _ := none
  classCounter := 0

/-- The bytes that a call of `serialize` leaves in the stream when it succeeds. -/
def serialize (vm : SerializerVm σ) (st : σ) (v : Value) : Except String (List UInt8) :=
  match serializeObject vm maxDepth v (Serializer.initial st) with
  | (s, none) => .ok (startMarker :: encodeAll s.tokens ++ [endMarker])
  | (_, some e) => .error e

end Quirrel.Serialization
