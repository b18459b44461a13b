import Quirrel.Lib.LittleEndian

set_option autoImplicit false

/-!
# Saving and loading function prototypes

`SQFunctionProto::Save` writes a prototype field by field, and `SQFunctionProto::Load` reads the
fields back. `Save` writes `lang_features` as the 32-bit word it is; `Load` reads it into an
`SQUnsignedInteger` of 64 bits. Every count after it is read four bytes too far on, so that no
prototype is loaded from what was saved (`never_loads_back`).
-/

namespace Quirrel.FunctionProto

open Lib

/-- The bytes of a stream. -/
abbrev Bytes := List UInt8

/-! ## Prototypes -/

/-- The characters of an `SQString`; `_len` is an `SQInteger`. -/
structure SQString where
  chars : Bytes
  length_lt : chars.length < 2 ^ 63

/-- An object by how `WriteObject` treats it; `other` has the type word of an object that it cannot
write. -/
inductive SQObject where
  | null
  | bool (i : BitVec 64)
  | integer (i : BitVec 64)
  | float (f : UInt32)
  | string (s : SQString)
  | other (typeWord : Nat)

/-- `flags` is `_varFlags` with the padding after it. -/
structure SQOuterVar where
  type : UInt32
  flags : UInt32
  varFlags : BitVec 64
  name : SQObject
  src : SQObject

/-- `SQLocalVarInfo` -/
structure SQLocalVarInfo where
  name : SQObject
  startOp : UInt32
  endOp : UInt32
  pos : UInt32
  flags : UInt32

/-- The fields of a prototype but for its nested functions. `lineinfos` is the memory from `_lineinfos`
to `_defaultparams`. Every function has the parameter `this`, and fewer default values than
parameters. -/
structure ProtoData where
  sourcename : SQObject
  name : SQObject
  langFeatures : UInt32
  resultTypeMask : UInt32
  insideHoistedScope : Bool
  bgenerator : Bool
  purefunction : Bool
  nodiscard : Bool
  stacksize : BitVec 32
  varparams : BitVec 32
  literals : List SQObject
  parameters : List SQObject
  outervalues : List SQOuterVar
  localvarinfos : List SQLocalVarInfo
  nlineinfos : Nat
  compressedLineInfos : Bool
  lineinfos : Bytes
  defaultparams : List UInt32
  paramTypeMasks : List UInt32
  instructions : List UInt64
  staticmemos : List SQObject

/-- `SQFunctionProto`: its own data and the nested functions. -/
inductive SQFunctionProto where
  | mk (data : ProtoData) (functions : List SQFunctionProto)

/-- A prototype that the compiler built: a function has the parameter `this`, and `_nparameters` is an
`SQInt32`. -/
structure CompiledProto where
  data : ProtoData
  functions : List SQFunctionProto
  this_param : 0 < data.parameters.length
  nparameters_lt : data.parameters.length < 2 ^ 31

/-- The prototype without the proof that its arrays fit. -/
def CompiledProto.proto (p : CompiledProto) : SQFunctionProto :=
  .mk p.data p.functions

/-! ## Save -/

/-- `OT_NULL` -/
def otNull : Nat := 0
/-- `OT_INTEGER` -/
def otInteger : Nat := 0x04000002
/-- `OT_FLOAT` -/
def otFloat : Nat := 0x04000004
/-- `OT_BOOL` -/
def otBool : Nat := 0x00000008
/-- `OT_STRING` -/
def otString : Nat := 0x08000010

/-- `SQ_CLOSURESTREAM_PART` -/
def closurestreamPart : Nat := 0x50415254

/-- `WriteTag` -/
def writeTag (tag : Nat) : Bytes := toLE 4 tag

/-- `WriteObject`; an object of another type is an error. -/
def writeObject : SQObject → Option Bytes
  | .null => some (toLE 4 otNull)
  | .bool i => some (toLE 4 otBool ++ toLE 8 i.toNat)
  | .integer i => some (toLE 4 otInteger ++ toLE 8 i.toNat)
  | .float f => some (toLE 4 otFloat ++ toLE 4 f.toNat)
  | .string s => some (toLE 4 otString ++ toLE 8 s.chars.length ++ s.chars)
  | .other _ => none

/-- The objects of an array, up to the first error. -/
def writeObjects : List SQObject → Option Bytes
  | [] => some []
  | o :: os => do
    let b ← writeObject o
    let bs ← writeObjects os
    return b ++ bs

/-- `_type` is written with eight bytes. -/
def writeOuterVar (o : SQOuterVar) : Option Bytes := do
  let src ← writeObject o.src
  let name ← writeObject o.name
  return toLE 4 o.type.toNat ++ toLE 4 o.flags.toNat ++ src ++ name ++ toLE 8 o.varFlags.toNat

/-- Each of the three numbers is written with eight bytes. -/
def writeLocalVarInfo (l : SQLocalVarInfo) : Option Bytes := do
  let name ← writeObject l.name
  return name ++ toLE 4 l.pos.toNat ++ toLE 4 l.flags.toNat ++
    toLE 4 l.startOp.toNat ++ toLE 4 l.endOp.toNat ++ toLE 4 l.endOp.toNat ++ toLE 4 l.pos.toNat

/-- A `bool` as the byte it is in memory. -/
def writeBool (b : Bool) : Bytes := [if b then 1 else 0]

/-- The counts, with `lang_features` before them. -/
def writeHeader (p : ProtoData) (nfunctions : Nat) : Bytes :=
  toLE 4 p.langFeatures.toNat ++ (toLE 8 p.literals.length ++ (toLE 8 p.parameters.length ++
    (toLE 8 p.outervalues.length ++ (toLE 8 p.localvarinfos.length ++ (toLE 8 p.nlineinfos ++
      (writeBool p.compressedLineInfos ++ (toLE 8 p.defaultparams.length ++
        (toLE 8 p.instructions.length ++ (toLE 8 nfunctions ++
          toLE 8 p.staticmemos.length)))))))))

/-- `sizeof(SQInteger)` bytes for each of the `SQInt32` from `_defaultparams` on: they reach into
`_param_type_masks`. -/
def writeDefaultParams (p : ProtoData) : Bytes :=
  ((p.defaultparams ++ p.paramTypeMasks).flatMap fun w => toLE 4 w.toNat).take
    (8 * p.defaultparams.length)

mutual

/-- `SQFunctionProto::Save` -/
def SQFunctionProto.save : SQFunctionProto → Option Bytes
  | .mk p functions => do
    let sourcename ← writeObject p.sourcename
    let name ← writeObject p.name
    let literals ← writeObjects p.literals
    let parameters ← writeObjects p.parameters
    let outervalues ← p.outervalues.mapM writeOuterVar
    let localvarinfos ← p.localvarinfos.mapM writeLocalVarInfo
    let nested ← saveAll functions
    return writeTag closurestreamPart ++ (sourcename ++ (name ++
      (writeTag closurestreamPart ++ (writeHeader p functions.length ++
      (writeTag closurestreamPart ++ (literals ++
      (writeTag closurestreamPart ++ (parameters ++
      (writeTag closurestreamPart ++ (outervalues.flatten ++
      (writeTag closurestreamPart ++ (localvarinfos.flatten ++
      (writeTag closurestreamPart ++ (p.lineinfos ++
      (writeTag closurestreamPart ++ (writeDefaultParams p ++
      (writeTag closurestreamPart ++ (p.instructions.flatMap (fun i => toLE 8 i.toNat) ++
      (writeTag closurestreamPart ++ (nested ++
      (toLE 4 p.stacksize.toNat ++ (writeBool p.bgenerator ++ (writeBool p.purefunction ++
      (writeBool p.nodiscard ++ toLE 4 p.varparams.toNat))))))))))))))))))))))))

/-- The nested functions, in order. -/
def saveAll : List SQFunctionProto → Option Bytes
  | [] => some []
  | f :: fs => do
    let b ← f.save
    let bs ← saveAll fs
    return b ++ bs

end

/-! ## Load -/

/-- `io`: "io error, read function failure, the origin stream could be corrupted/trucated";
`corrupted`: "invalid or corrupted closure stream"; `cannotSerialize`: "cannot serialize a %s".
`outOfMemory` is a failed allocation, which the code does not check, and `outOfFuel` is the
recursion's bound here. -/
inductive LoadError where
  | io
  | corrupted
  | cannotSerialize (typeWord : Nat)
  | outOfMemory
  | outOfFuel
  deriving DecidableEq

/-- A function that reads from the stream and may fail. -/
abbrev Reader := StateT Bytes (Except LoadError)

/-- `SafeRead` -/
def safeRead (n : Nat) : Reader Bytes := fun bytes =>
  match readExact n bytes with
  | some (out, rest) => .ok (out, rest)
  | none => .error .io

/-- A little-endian word of so many bytes. -/
def readWord (n : Nat) : Reader Nat := do
  let bytes ← safeRead n
  return ofLE bytes

/-- `CheckTag` -/
def checkTag (tag : Nat) : Reader Unit := do
  let t ← readWord 4
  if t = tag then return () else throw .corrupted

/-- The string object over bytes that were read. -/
def readString (chars : Bytes) : Reader SQObject :=
  if h : chars.length < 2 ^ 63 then return .string ⟨chars, h⟩ else throw .io

/-- `ReadObject` -/
def readObject : Reader SQObject := do
  let t ← readWord 4
  if t = otString then
    let len ← readWord 8
    let chars ← safeRead len
    readString chars
  else if t = otInteger then
    let i ← readWord 8
    return .integer (BitVec.ofNat 64 i)
  else if t = otBool then
    let i ← readWord 8
    return .bool (BitVec.ofNat 64 i)
  else if t = otFloat then
    let f ← readWord 4
    return .float (UInt32.ofNat f)
  else if t = otNull then return .null
  else throw (.cannotSerialize t)

/-- The same reader a number of times. -/
def readMany {α : Type} (r : Reader α) : Nat → Reader (List α)
  | 0 => return []
  | n + 1 => do
    let a ← r
    let as ← readMany r n
    return a :: as

/-- An outer variable: the type is written as eight bytes, and the flags take eight on reading. -/
def readOuterVar : Reader SQOuterVar := do
  let type ← readWord 8
  let src ← readObject
  let name ← readObject
  let varFlags ← readWord 8
  return ⟨UInt32.ofNat type, UInt32.ofNat varFlags, BitVec.ofNat 64 varFlags, name, src⟩

/-- A local variable: each of its words is read as eight bytes. -/
def readLocalVarInfo : Reader SQLocalVarInfo := do
  let name ← readObject
  let pos ← readWord 8
  let startOp ← readWord 8
  let endOp ← readWord 8
  return ⟨name, UInt32.ofNat startOp, UInt32.ofNat endOp, UInt32.ofNat (endOp / 2 ^ 32),
    UInt32.ofNat (pos / 2 ^ 32)⟩

/-- The counts that `Load` passes to `SQFunctionProto::Create`. -/
structure Counts where
  langFeatures : Nat
  nliterals : Nat
  nparameters : Nat
  noutervalues : Nat
  nlocalvarinfos : Nat
  nlineinfos : Nat
  compressedLineInfos : Bool
  ndefaultparams : Nat
  ninstructions : Nat
  nfunctions : Nat
  nstaticmemos : Nat

/-- `langFeatures` is an `SQUnsignedInteger`. -/
def readHeader : Reader Counts := do
  let langFeatures ← readWord 8
  let nliterals ← readWord 8
  let nparameters ← readWord 8
  let noutervalues ← readWord 8
  let nlocalvarinfos ← readWord 8
  let nlineinfos ← readWord 8
  let compressedLineInfos ← readWord 1
  let ndefaultparams ← readWord 8
  let ninstructions ← readWord 8
  let nfunctions ← readWord 8
  let nstaticmemos ← readWord 8
  return ⟨langFeatures, nliterals, nparameters, noutervalues, nlocalvarinfos, nlineinfos,
    compressedLineInfos != 0, ndefaultparams, ninstructions, nfunctions, nstaticmemos⟩

/-- The allocation in `SQFunctionProto::Create`: whether it succeeds for the counts, and what the new
memory of `_param_type_masks` holds. -/
structure Allocation where
  fits : Counts → Bool
  mask : Nat → UInt32

/-- The size of the memory from `_lineinfos` to `_defaultparams`. -/
def lineinfosSize (c : Counts) : Nat :=
  (4 + c.nlineinfos * (if c.compressedLineInfos then 2 else 8) + 7) / 8 * 8 + 32 * c.nlocalvarinfos

/-- The words that are read over `_defaultparams` and the memory after it. -/
def wordAt (region : Bytes) (i : Nat) : UInt32 :=
  UInt32.ofNat (ofLE ((region.drop (4 * i)).take 4))

/-- The type mask of a parameter after loading: what lies behind the default parameters, or what
the allocation held. -/
def loadedMask (alloc : Allocation) (c : Counts) (region : Bytes) (i : Nat) : UInt32 :=
  if i < c.ndefaultparams then wordAt region (c.ndefaultparams + i) else alloc.mask i

/-- `SQFunctionProto::Load`. The number bounds the depth of nested functions. -/
def SQFunctionProto.load (alloc : Allocation) : Nat → Reader SQFunctionProto
  | 0 => throw .outOfFuel
  | fuel + 1 => do
    checkTag closurestreamPart
    let sourcename ← readObject
    let name ← readObject
    checkTag closurestreamPart
    let c ← readHeader
    if !alloc.fits c then throw .outOfMemory
    checkTag closurestreamPart
    let literals ← readMany readObject c.nliterals
    checkTag closurestreamPart
    let parameters ← readMany readObject c.nparameters
    checkTag closurestreamPart
    let outervalues ← readMany readOuterVar c.noutervalues
    checkTag closurestreamPart
    let localvarinfos ← readMany readLocalVarInfo c.nlocalvarinfos
    checkTag closurestreamPart
    let lineinfos ← safeRead (lineinfosSize c)
    checkTag closurestreamPart
    let region ← safeRead (8 * c.ndefaultparams)
    checkTag closurestreamPart
    let instructions ← readMany (readWord 8) c.ninstructions
    checkTag closurestreamPart
    let functions ← readMany (SQFunctionProto.load alloc fuel) c.nfunctions
    let stacksize ← readWord 4
    let bgenerator ← readWord 1
    let purefunction ← readWord 1
    let nodiscard ← readWord 1
    let varparams ← readWord 4
    return .mk
      { sourcename, name, literals, parameters, outervalues, localvarinfos, lineinfos
        langFeatures := UInt32.ofNat c.langFeatures
        resultTypeMask := UInt32.ofNat (2 ^ 32 - 1)
        insideHoistedScope := false
        bgenerator := bgenerator != 0
        purefunction := purefunction != 0
        nodiscard := nodiscard != 0
        stacksize := BitVec.ofNat 32 stacksize
        varparams := BitVec.ofNat 32 varparams
        nlineinfos := c.nlineinfos
        compressedLineInfos := c.compressedLineInfos
        defaultparams := (List.range c.ndefaultparams).map (wordAt region)
        paramTypeMasks := (List.range c.nparameters).map (loadedMask alloc c region)
        instructions := instructions.map UInt64.ofNat
        staticmemos := List.replicate c.nstaticmemos .null }
      functions

/-! ## What is read back -/

section Run

variable {α β : Type} {x : Reader α} {f : α → Reader β} {bytes rest : Bytes}

theorem bind_ok {a : α} (h : x bytes = .ok (a, rest)) : (x >>= f) bytes = f a rest := by
  show (x bytes >>= fun p => f p.1 p.2) = f a rest
  rw [h]
  rfl

theorem bind_error {e : LoadError} (h : x bytes = .error e) : (x >>= f) bytes = .error e := by
  show (x bytes >>= fun p => f p.1 p.2) = .error e
  rw [h]
  rfl

end Run

theorem readWord_append {n : Nat} {b rest : Bytes} (h : b.length = n) :
    readWord n (b ++ rest) = .ok (ofLE b, rest) := by
  have hread : safeRead n (b ++ rest) = .ok (b, rest) := by
    rw [safeRead, readExact_append h]
  exact bind_ok hread

theorem readWord_of_le {n : Nat} {bytes : Bytes} (h : n ≤ bytes.length) :
    readWord n bytes = .ok (ofLE (bytes.take n), bytes.drop n) := by
  have hlen : (bytes.take n).length = n := by rw [List.length_take, Nat.min_eq_left h]
  have hread := @readWord_append n _ (bytes.drop n) hlen
  rwa [List.take_append_drop] at hread

theorem readWord_toLE {n v : Nat} (h : v < 256 ^ n) (rest : Bytes) :
    readWord n (toLE n v ++ rest) = .ok (v, rest) := by
  rw [readWord_append (length_toLE n v), ofLE_toLE_of_lt h]

theorem checkTag_writeTag {tag : Nat} (h : tag < 256 ^ 4) (rest : Bytes) :
    checkTag tag (writeTag tag ++ rest) = .ok ((), rest) := by
  unfold checkTag
  rw [writeTag, bind_ok (readWord_toLE h rest), if_pos rfl]
  rfl

theorem checkTag_of_ne {tag t : Nat} (ht : t < 256 ^ 4) (hne : t ≠ tag) (rest : Bytes) :
    checkTag tag (toLE 4 t ++ rest) = .error .corrupted := by
  unfold checkTag
  rw [bind_ok (readWord_toLE ht rest), if_neg hne]
  rfl

theorem readObject_part (rest : Bytes) :
    readObject (writeTag closurestreamPart ++ rest) =
      .error (.cannotSerialize closurestreamPart) := by
  unfold readObject
  rw [writeTag, bind_ok (readWord_toLE (by decide) rest)]
  rfl

/-- What was written as an object is read as one. -/
theorem readObject_writeObject {o : SQObject} {b : Bytes} (h : writeObject o = some b)
    (rest : Bytes) : ∃ o', readObject (b ++ rest) = .ok (o', rest) := by
  cases o with
  | null =>
    cases h
    unfold readObject
    rw [bind_ok (readWord_toLE (by decide) rest)]
    exact ⟨.null, rfl⟩
  | bool i =>
    cases h
    unfold readObject
    rw [List.append_assoc, bind_ok (readWord_toLE (by decide) _), if_neg (by decide),
      if_neg (by decide), if_pos rfl, bind_ok (readWord_append (length_toLE 8 _))]
    exact ⟨_, rfl⟩
  | integer i =>
    cases h
    unfold readObject
    rw [List.append_assoc, bind_ok (readWord_toLE (by decide) _), if_neg (by decide), if_pos rfl,
      bind_ok (readWord_append (length_toLE 8 _))]
    exact ⟨_, rfl⟩
  | float f =>
    cases h
    unfold readObject
    rw [List.append_assoc, bind_ok (readWord_toLE (by decide) _), if_neg (by decide),
      if_neg (by decide), if_neg (by decide), if_pos rfl,
      bind_ok (readWord_append (length_toLE 4 _))]
    exact ⟨_, rfl⟩
  | string s =>
    cases h
    have hlen : s.chars.length < 256 ^ 8 := Nat.lt_trans s.length_lt (by decide)
    have hchars : safeRead s.chars.length (s.chars ++ rest) = .ok (s.chars, rest) := by
      rw [safeRead, readExact_append rfl]
    unfold readObject
    rw [List.append_assoc, List.append_assoc, bind_ok (readWord_toLE (by decide) _), if_pos rfl,
      bind_ok (readWord_toLE hlen _), bind_ok hchars, readString, dif_pos s.length_lt]
    exact ⟨_, rfl⟩
  | other t => cases h

/-- An object starts with its type word, which is not a part tag. -/
theorem writeObject_type {o : SQObject} {b : Bytes} (h : writeObject o = some b) :
    ∃ t b', b = toLE 4 t ++ b' ∧ t < 256 ^ 4 ∧ t ≠ closurestreamPart := by
  cases o with
  | null =>
    cases h
    exact ⟨otNull, [], (List.append_nil _).symm, by decide, by decide⟩
  | bool i =>
    cases h
    exact ⟨otBool, _, rfl, by decide, by decide⟩
  | integer i =>
    cases h
    exact ⟨otInteger, _, rfl, by decide, by decide⟩
  | float f =>
    cases h
    exact ⟨otFloat, _, rfl, by decide, by decide⟩
  | string s =>
    cases h
    exact ⟨otString, _, List.append_assoc _ _ _, by decide, by decide⟩
  | other t => cases h

/-- Asked for more objects than were written, `Load` takes the next part tag for a type word. -/
theorem readMany_objects {os : List SQObject} {b : Bytes} (h : writeObjects os = some b) {n : Nat}
    (hn : os.length < n) (rest : Bytes) :
    readMany readObject n (b ++ (writeTag closurestreamPart ++ rest)) =
      .error (.cannotSerialize closurestreamPart) := by
  induction os generalizing b n with
  | nil =>
    cases h
    cases n with
    | zero => exact absurd hn (Nat.not_lt_zero _)
    | succ n => exact bind_error (readObject_part rest)
  | cons o os ih =>
    obtain ⟨b₁, h₁, h⟩ := Option.bind_eq_some_iff.1 h
    obtain ⟨b₂, h₂, hb⟩ := Option.bind_eq_some_iff.1 h
    cases hb
    cases n with
    | zero => exact absurd hn (Nat.not_lt_zero _)
    | succ n =>
      obtain ⟨o', ho⟩ := readObject_writeObject h₁
        (b₂ ++ (writeTag closurestreamPart ++ rest))
      rw [readMany, List.append_assoc, bind_ok ho]
      exact bind_error (ih h₂ (Nat.lt_of_succ_lt_succ hn))

/-- The header takes 81 bytes, whatever they are. -/
theorem readHeader_of_le {bytes : Bytes} (h : 81 ≤ bytes.length) :
    ∃ c, readHeader bytes = .ok (c, bytes.drop 81) ∧
      c.nliterals = ofLE ((bytes.drop 8).take 8) := by
  have hread : ∀ (k n : Nat), k + n ≤ 81 →
      readWord n (bytes.drop k) = .ok (ofLE ((bytes.drop k).take n), bytes.drop (k + n)) := by
    intro k n hkn
    rw [readWord_of_le (by rw [List.length_drop]; omega), List.drop_drop]
  have hfirst : readWord 8 bytes = .ok (ofLE (bytes.take 8), bytes.drop 8) :=
    readWord_of_le (by omega)
  unfold readHeader
  rw [bind_ok hfirst, bind_ok (hread 8 8 (by decide)), bind_ok (hread 16 8 (by decide)),
    bind_ok (hread 24 8 (by decide)), bind_ok (hread 32 8 (by decide)),
    bind_ok (hread 40 8 (by decide)), bind_ok (hread 48 1 (by decide)),
    bind_ok (hread 49 8 (by decide)), bind_ok (hread 57 8 (by decide)),
    bind_ok (hread 65 8 (by decide)), bind_ok (hread 73 8 (by decide))]
  exact ⟨_, rfl, rfl⟩

/-! ## The header, four bytes too far on -/

theorem length_header (p : ProtoData) (n : Nat) :
    (writeHeader p n ++ writeTag closurestreamPart).length = 81 := by
  simp [writeHeader, writeBool, writeTag]

/-- Where there is no literal, the number of parameters is read as the high half of the number of
literals. -/
theorem nliterals_of_header {p : ProtoData} (hlit : p.literals = [])
    (hparam : p.parameters.length < 2 ^ 32) (n : Nat) (rest : Bytes) :
    ofLE (((writeHeader p n ++ rest).drop 8).take 8) = 2 ^ 32 * p.parameters.length := by
  have hzero : toLE 8 0 = toLE 4 0 ++ toLE 4 0 := toLE_add 4 4 0
  have hcount : toLE 8 p.parameters.length =
      toLE 4 p.parameters.length ++ toLE 4 (p.parameters.length / 256 ^ 4) := toLE_add 4 4 _
  have hsplit : ∃ high, writeHeader p n ++ rest =
      (toLE 4 p.langFeatures.toNat ++ toLE 4 0) ++
        ((toLE 4 0 ++ toLE 4 p.parameters.length) ++ high) := by
    simp only [writeHeader, hlit, List.length_nil, hzero, hcount, List.append_assoc]
    exact ⟨_, rfl⟩
  obtain ⟨high, hbytes⟩ := hsplit
  rw [hbytes, List.drop_left' (by simp), List.take_left' (by simp), ofLE_append, length_toLE,
    ofLE_toLE, ofLE_toLE_of_lt hparam]
  simp

/-- `Load` gets as far as the parameters, at most. -/
theorem load_header_error (alloc : Allocation) (fuel : Nat) {p : CompiledProto}
    {sourcename name literals parameters rest : Bytes}
    (hsource : writeObject p.data.sourcename = some sourcename)
    (hname : writeObject p.data.name = some name)
    (hliterals : writeObjects p.data.literals = some literals)
    (hparameters : writeObjects p.data.parameters = some parameters) :
    ∃ e, e ≠ .outOfFuel ∧ SQFunctionProto.load alloc (fuel + 1)
      (writeTag closurestreamPart ++ (sourcename ++ (name ++
      (writeTag closurestreamPart ++ (writeHeader p.data p.functions.length ++
      (writeTag closurestreamPart ++ (literals ++
      (writeTag closurestreamPart ++ (parameters ++
      (writeTag closurestreamPart ++ rest)))))))))) = .error e := by
  have htag : closurestreamPart < 256 ^ 4 := by decide
  obtain ⟨o₁, h₁⟩ := readObject_writeObject hsource (name ++
      (writeTag closurestreamPart ++ (writeHeader p.data p.functions.length ++
      (writeTag closurestreamPart ++ (literals ++ (writeTag closurestreamPart ++ (parameters ++
      (writeTag closurestreamPart ++ rest))))))))
  obtain ⟨o₂, h₂⟩ := readObject_writeObject hname
      (writeTag closurestreamPart ++ (writeHeader p.data p.functions.length ++
      (writeTag closurestreamPart ++ (literals ++ (writeTag closurestreamPart ++ (parameters ++
      (writeTag closurestreamPart ++ rest)))))))
  -- the 77 bytes of the header and the tag after it
  have hdrop : ∀ tl : Bytes, (writeHeader p.data p.functions.length ++
      (writeTag closurestreamPart ++ tl)).drop 81 = tl := by
    intro tl
    rw [← List.append_assoc, List.drop_left' (length_header _ _)]
  have hlen : ∀ tl : Bytes, 81 ≤ (writeHeader p.data p.functions.length ++
      (writeTag closurestreamPart ++ tl)).length := by
    intro tl
    rw [← List.append_assoc, List.length_append, length_header]
    exact Nat.le_add_right _ _
  obtain ⟨c, hc, hnlit⟩ := readHeader_of_le (hlen (literals ++ (writeTag closurestreamPart ++
    (parameters ++ (writeTag closurestreamPart ++ rest)))))
  rw [hdrop] at hc
  unfold SQFunctionProto.load
  rw [bind_ok (checkTag_writeTag htag _), bind_ok h₁, bind_ok h₂,
    bind_ok (checkTag_writeTag htag _), bind_ok hc]
  cases alloc.fits c with
  | false => exact ⟨.outOfMemory, nofun, rfl⟩
  | true =>
    cases hl : p.data.literals with
    | cons o os =>
      -- the reader is at the first literal
      rw [hl] at hliterals
      obtain ⟨b₁, hb₁, h⟩ := Option.bind_eq_some_iff.1 hliterals
      obtain ⟨b₂, -, hb⟩ := Option.bind_eq_some_iff.1 h
      cases hb
      obtain ⟨t, b', rfl, ht, hne⟩ := writeObject_type hb₁
      rw [List.append_assoc, List.append_assoc]
      exact ⟨.corrupted, nofun, bind_error (checkTag_of_ne ht hne _)⟩
    | nil =>
      -- the reader is at the tag before the parameters
      rw [hl] at hliterals
      cases hliterals
      have hmany : p.data.parameters.length < c.nliterals := by
        rw [hnlit, nliterals_of_header hl (Nat.lt_trans p.nparameters_lt (by decide))]
        have := p.this_param
        omega
      exact ⟨.cannotSerialize closurestreamPart, nofun,
        (bind_ok (checkTag_writeTag htag _)).trans
          (bind_error (readMany_objects hparameters hmany rest))⟩

/-- `Load` fails on whatever `Save` wrote. -/
theorem load_save_error (alloc : Allocation) (fuel : Nat) {p : CompiledProto} {bytes : Bytes}
    (h : p.proto.save = some bytes) :
    ∃ e, e ≠ .outOfFuel ∧ SQFunctionProto.load alloc (fuel + 1) bytes = .error e := by
  unfold CompiledProto.proto SQFunctionProto.save at h
  obtain ⟨sourcename, hsource, h⟩ := Option.bind_eq_some_iff.1 h
  obtain ⟨name, hname, h⟩ := Option.bind_eq_some_iff.1 h
  obtain ⟨literals, hliterals, h⟩ := Option.bind_eq_some_iff.1 h
  obtain ⟨parameters, hparameters, h⟩ := Option.bind_eq_some_iff.1 h
  obtain ⟨outervalues, -, h⟩ := Option.bind_eq_some_iff.1 h
  obtain ⟨localvarinfos, -, h⟩ := Option.bind_eq_some_iff.1 h
  obtain ⟨nested, -, h⟩ := Option.bind_eq_some_iff.1 h
  cases h
  exact load_header_error alloc fuel hsource hname hliterals hparameters

/-- No prototype comes back equivalent to the one saved, whatever equivalent means: none comes back. -/
theorem never_loads_back (R : SQFunctionProto → SQFunctionProto → Prop) (alloc : Allocation)
    (fuel : Nat) (p : CompiledProto) :
    ¬ ∃ bytes q rest, p.proto.save = some bytes ∧
      SQFunctionProto.load alloc fuel bytes = .ok (q, rest) ∧ R p.proto q := by
  rintro ⟨bytes, q, rest, hsave, hload, -⟩
  cases fuel with
  | zero => cases hload
  | succ fuel =>
    obtain ⟨e, -, he⟩ := load_save_error alloc fuel hsave
    rw [he] at hload
    cases hload

/-- `function f() {}`: the parameter `this`, and `_OP_RETURN` with `_arg0` 0xFF. -/
def emptyFunction : CompiledProto where
  data :=
    { sourcename := .null
      name := .string ⟨[102], by decide⟩
      langFeatures := 0
      resultTypeMask := UInt32.ofNat 0xFFFFFFFF
      insideHoistedScope := false
      bgenerator := false
      purefunction := false
      nodiscard := false
      stacksize := 2
      varparams := 0
      literals := []
      parameters := [.string ⟨[116, 104, 105, 115], by decide⟩]
      outervalues := []
      localvarinfos := []
      nlineinfos := 0
      compressedLineInfos := true
      lineinfos := [0, 0, 0, 128, 0, 0, 0, 0]
      defaultparams := []
      paramTypeMasks := [UInt32.ofNat 0xFFFFFFFF]
      instructions := [0xFF1D00000000]
      staticmemos := [] }
  functions := []
  this_param := by decide
  nparameters_lt := by decide

/-- It is saved, and it is not loaded, although the memory asked for is there. -/
theorem empty_function_not_loaded :
    ∃ bytes, emptyFunction.proto.save = some bytes ∧
      ∀ q rest, SQFunctionProto.load ⟨fun _ => true, fun _ => 0⟩ 1 bytes ≠ .ok (q, rest) := by
  have hsave : ∃ bytes, emptyFunction.proto.save = some bytes := ⟨_, rfl⟩
  obtain ⟨bytes, hbytes⟩ := hsave
  obtain ⟨e, -, he⟩ := load_save_error ⟨fun _ => true, fun _ => 0⟩ 0 hbytes
  refine ⟨bytes, hbytes, ?_⟩
  intro q rest h
  rw [he] at h
  cases h

end Quirrel.FunctionProto
