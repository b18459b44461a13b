import Quirrel.Array.Basic

/-!
# The methods of arrays

`SQArray` and the native functions of the array class with their checks, and indexing by a number.
The type masks of the functions admit any number for an index, a size or a bound.
-/

set_option autoImplicit false

namespace Quirrel.Array

open Quirrel.Lib Quirrel.Vm

/-- What the array operations use of values: `null`, `_realval` and the conversion of floats. -/
structure Values (α : Type) where
  null : α
  realval : α → α
  cast : SQFloat → SQInteger

/-- What a native function returns to the script besides its effect on the array. -/
inductive Ret (α : Type) where
  | self
  | value (x : α)
  | newArray (vals : List α)

/-- How a native ends: outside the memory, with an error, or with a value. -/
inductive Outcome (α : Type) where
  | fault
  | error (msg : String) (a : SqVector α)
  | ok (ret : Ret α) (a : SqVector α)

variable {α : Type} (V : Values α)

/-- A value, unless the vector could not be changed. -/
def Outcome.ofVector (ret : Ret α) : Option (SqVector α) → Outcome α
  | some a => .ok ret a
  | none => .fault

/-! ## `SQArray` -/

/-- `ShrinkIfNeeded` -/
def shrinkIfNeeded (a : SqVector α) : Option (SqVector α) :=
  if a.size ≤ (a.allocated >>> 2).toNat then a.shrinktofit else some a

/-- `SQArray::Get` -/
def arrGet (a : SqVector α) (nidx : SQInteger) : Option α :=
  if nidx.toNat < a.size then a.vals[nidx.toNat]?.map V.realval else none

/-- `SQArray::Set` -/
def arrSet (a : SqVector α) (nidx : SQInteger) (val : α) : Option (SqVector α) :=
  if nidx.toNat < a.size then a.store (a.vals.set nidx.toNat val) else none

/-- `SQArray::Resize` -/
def arrResize (a : SqVector α) (size : SQInteger) (fill : α) : Option (SqVector α) := do
  let a ← a.resize (sizeType size) fill
  shrinkIfNeeded a

/-- `SQArray::Pop` -/
def arrPop (a : SqVector α) : Option (SqVector α) := do
  let a ← a.popBack
  shrinkIfNeeded a

/-- `SQArray::Extend`. The source may be the array itself: the cells below the length that it had
are read, and appending leaves them alone. -/
def arrExtend (a : SqVector α) : List α → Option (SqVector α)
  | [] => some a
  | x :: xs => do
    let a ← a.pushBack x
    arrExtend a xs

/-- `SQArray::Remove` of an index in range. -/
def arrRemove (a : SqVector α) (idx : SQInteger) : Option (SqVector α) := do
  let a ← a.remove (sizeType idx)
  shrinkIfNeeded a

/-! ## Native functions -/

/-- The error of every native that changes an immutable array. -/
def immutableError : String :=
  "Cannot modify immutable object"

/-- `SQ_CHECK_IMMUTABLE_SELF` -/
def checkImmutable (immutable : Bool) (a : SqVector α) (body : Outcome α) : Outcome α :=
  if immutable then .error immutableError a else body

/-- `array_append` -/
def arrayAppend (immutable : Bool) (a : SqVector α) (items : List α) : Outcome α :=
  checkImmutable immutable a <|
    let offs := a.size
    .ofVector .self do
      let a ← arrResize a (BitVec.ofNat 64 (offs + items.length)) V.null
      a.store (setFrom a.vals offs items)

/-- A source of `extend`: the array itself or another one. -/
inductive Source (α : Type) where
  | self
  | other (vals : List α)

/-- The cells that `Extend` reads. -/
def Source.cells (a : SqVector α) : Source α → List α
  | .self => a.vals
  | .other vals => vals

/-- The arrays that `extend` appends, in order. -/
def extendAll (a : SqVector α) : List (Source α) → Option (SqVector α)
  | [] => some a
  | src :: sources => do
    let a ← arrExtend a (src.cells a)
    extendAll a sources

/-- `array_extend` of arrays -/
def arrayExtend (immutable : Bool) (a : SqVector α) (sources : List (Source α)) : Outcome α :=
  checkImmutable immutable a <| .ofVector .self (extendAll a sources)

/-- `array_reverse` with `sq_arrayreverse` -/
def arrayReverse (immutable : Bool) (a : SqVector α) : Outcome α :=
  checkImmutable immutable a <|
    if 0 < a.size then .ofVector .self (a.store (swapEnds (a.size - 1) a.vals (a.size / 2)))
    else .ok .self a

/-- `array_pop` with `sq_arraypop` -/
def arrayPop (immutable : Bool) (a : SqVector α) : Outcome α :=
  checkImmutable immutable a <|
    match a.vals.getLast? with
    | some x => .ofVector (.value x) (arrPop a)
    | none => .error "empty array" a

/-- `array_insert` with `SQArray::Insert` -/
def arrayInsert (immutable : Bool) (a : SqVector α) (idx : SQNumber) (val : α) : Outcome α :=
  checkImmutable immutable a <|
    let i := idx.tointeger V.cast
    if i.toInt < 0 ∨ (a.size : Int) < i.toInt then .error "index out of range" a
    else .ofVector .self (a.insert V.null (sizeType i) val)

/-- `array_remove` -/
def arrayRemove (immutable : Bool) (a : SqVector α) (idx : SQNumber) : Outcome α :=
  checkImmutable immutable a <|
    let i := idx.tointeger V.cast
    match arrGet V a i with
    | some val => .ofVector (.value val) (arrRemove a i)
    | none => .error "idx out of range" a

/-- `array_resize` -/
def arrayResize (immutable : Bool) (a : SqVector α) (nsize : SQNumber) (fill : Option α) :
    Outcome α :=
  checkImmutable immutable a <|
    let sz := nsize.tointeger V.cast
    if sz.toInt < 0 then .error "resizing to negative length" a
    else .ofVector .self (arrResize a sz (fill.getD V.null))

/-- `clamp_int` -/
def clampInt (v minv maxv : Int) : Int :=
  if v < minv then minv else if maxv < v then maxv else v

/-- A bound of a slice: a negative one counts from the end. -/
def sliceBound (alen v : Int) : Int :=
  clampInt (if v < 0 then alen + v else v) 0 alen

/-- `array_slice` with `get_slice_params`: the loop copies what `Get` returns into the cells of a
new array one by one. -/
def arraySlice (a : SqVector α) (start stop : Option SQNumber) : Outcome α :=
  let bound (n : SQNumber) : Int := (n.tointeger V.cast).toInt
  let sidx := sliceBound a.size ((start.map bound).getD 0)
  let eidx := sliceBound a.size ((stop.map bound).getD a.size)
  if a.size = 0 ∨ eidx ≤ sidx then .ok (.newArray []) a
  else
    let count := (eidx - sidx).toNat
    let items := (List.range' sidx.toNat count).filterMap fun i => arrGet V a (BitVec.ofNat 64 i)
    .ok (.newArray (setFrom (List.replicate count V.null) 0 items)) a

/-- `swap` of an array: sizes and indices are `int`s. -/
def arraySwap (immutable : Bool) (a : SqVector α) (key1 key2 : SQNumber) : Outcome α :=
  checkImmutable immutable a <|
    let asize : BitVec 32 := BitVec.ofNat 32 a.size
    let fromEnd (k : BitVec 32) : BitVec 32 := if 0 ≤ k.toInt then k else asize + k
    let k1 := fromEnd ((key1.tointeger V.cast).setWidth 32)
    let k2 := fromEnd ((key2.tointeger V.cast).setWidth 32)
    if asize.toInt ≤ k1.toInt ∨ asize.toInt ≤ k2.toInt ∨ k1.toInt < 0 ∨ k2.toInt < 0 then
      .error "index is out of range" a
    else .ofVector .self (a.store (swapCells a.vals k1.toNat k2.toNat))

/-- `SQVM::GetImpl` of an array and a number -/
def getIndex (a : SqVector α) (key : SQNumber) : Outcome α :=
  match arrGet V a (key.tointeger V.cast) with
  | some val => .ok (.value val) a
  | none => .error "the index does not exist" a

/-- `SQVM::Set` of an array and a number -/
def setIndex (immutable : Bool) (a : SqVector α) (key : SQNumber) (val : α) : Outcome α :=
  if immutable then .error "trying to modify immutable 'array'" a
  else
    match arrSet a (key.tointeger V.cast) val with
    | some a => .ok (.value val) a
    | none => .error "the index does not exist" a

/-- `builtin_array_ctor`; an error leaves no array. -/
def builtinArrayCtor (size : SQNumber) (fill : Option α) : Outcome α :=
  let size := size.tointeger V.cast
  if size.toInt < 0 then .error "array size must be non-negative" .empty
  else
    match fill with
    | some fill => .ofVector .self (arrResize .empty size fill)
    | none => .ofVector .self (SqVector.resize .empty (sizeType size) V.null)

/-- A call of a method, or an indexing, with its numbers of type `ι`. -/
inductive Method (α ι : Type) where
  | append (items : List α)
  | extend (sources : List (Source α))
  | reverse
  | pop
  | insert (idx : ι) (val : α)
  | remove (idx : ι)
  | resize (size : ι) (fill : Option α)
  | slice (start stop : Option ι)
  | swap (key1 key2 : ι)
  | get (key : ι)
  | set (key : ι) (val : α)

/-- The call as the machine makes it, through a reference that may be immutable. -/
def Method.call (immutable : Bool) (a : SqVector α) : Method α SQNumber → Outcome α
  | .append items => arrayAppend V immutable a items
  | .extend sources => arrayExtend immutable a sources
  | .reverse => arrayReverse immutable a
  | .pop => arrayPop immutable a
  | .insert idx val => arrayInsert V immutable a idx val
  | .remove idx => arrayRemove V immutable a idx
  | .resize size fill => arrayResize V immutable a size fill
  | .slice start stop => arraySlice V a start stop
  | .swap key1 key2 => arraySwap V immutable a key1 key2
  | .get key => getIndex V a key
  | .set key val => setIndex V immutable a key val

end Quirrel.Array
