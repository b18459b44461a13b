import Quirrel.Array.Methods
import Quirrel.Lib.Fallible
import Quirrel.Vm.Compare

/-!
# `array.sort`

The heap sort of arrays with its comparisons. A comparison runs script code, the compare function or
a `_cmp` metamethod, that may change anything, the array included; what it does is a parameter.
-/

set_option autoImplicit false

namespace Quirrel.Array

open Quirrel.Lib Quirrel.Vm

/-- `_lasterror`, with the text of `Raise_CompareError` by its arguments. -/
inductive LastError where
  | string (s : String)
  | compareError (o1 o2 : SQObject)
  | value (o : SQObject)
  deriving DecidableEq

/-- `sq_isstring(_lasterror)` -/
def LastError.isString : LastError → Bool
  | .value _ => false
  | _ => true

/-- The cells of the array, their address, and what else a comparison can change. -/
structure SortState (W : Type) where
  values : List SQObject
  cells : Nat
  world : W

/-- What script code that was called ends in, with the state that it leaves. -/
abbrev Called (W α : Type) := SortState W → Except LastError α × SortState W

/-- The script code that comparisons run. -/
structure Comparer (W : Type) where
  ops : VmOps
  cast : SQFloat → SQInteger
  /-- `CallMetaMethod` for `_cmp` -/
  callMetaMethod : SQObject → SQObject → SQObject → Called W SQObject
  /-- `Call` of a compare function for two elements; `this` is null. -/
  call : SQObject → SQObject → SQObject → Called W SQObject

/-- An access outside the array, or an error that is raised. -/
inductive Stop where
  | fault
  | raised (e : LastError)
  deriving DecidableEq

/-- The number that a value is. -/
def numberOf : SQObject → Option SQNumber
  | .integer i => some (.integer i)
  | .float f => some (.float f)
  | _ => none

variable {W : Type} (C : Comparer W)

/-- The native with its array; it may stop with an error. -/
abbrev SortM (W α : Type) := Fallible Stop (SortState W) α

/-! ## Comparison -/

/-- `SQVM::ObjCmp` with the call of the metamethod. An assertion is no end of it. -/
def Comparer.objCmp (o1 o2 : SQObject) : Called W SQInteger := fun s =>
  match C.ops.objCmp o1 o2 with
  | .value r => (.ok (BitVec.ofInt 64 r), s)
  | .error o1 o2 => (.error (.compareError o1 o2), s)
  | .callMetaMethod closure o1 o2 =>
    match C.callMetaMethod closure o1 o2 s with
    | (.ok (.integer i), s') => (.ok i, s')
    | (.ok _, s') => (.error (.string "_cmp must return an integer"), s')
    | (.error e, s') => (.error e, s')
  | .assertion => (.error (.value .null), s)

/-- The error when the callback fails. -/
def compareFuncFailed : LastError :=
  .string "compare func failed"

/-- The error when the callback returns no number. -/
def numericExpected : LastError :=
  .string "numeric value expected as return value of the compare function"

/-- The error when a callback changes the size of the array. -/
def arrayResized : LastError :=
  .string "array resized during sort operation"

/-- The error when the inner loop runs out of the array. -/
def inconsistentCompare : LastError :=
  .string "inconsistent compare function"

/-- `_sort_compare`. Only a failed compare function is checked for the kind of its error. -/
def Comparer.sortCompare (func a b : SQObject) : SortM W SQInteger :=
  if func = .null then do
    match ← modifyGet (C.objCmp a b) with
    | .error e => throw (.raised e)
    | .ok r => pure r
  else do
    let before ← get
    match ← modifyGet (C.call func a b) with
    | .error e => throw (.raised (if e.isString then e else compareFuncFailed))
    | .ok out =>
      match numberOf out with
      | none => throw (.raised numericExpected)
      | some n => do
        let after ← get
        if before.values.length ≠ after.values.length ∨ before.cells ≠ after.cells then
          throw (.raised arrayResized)
        else pure (n.tointeger C.cast)

/-! ## Heap sort -/

/-- `arr->_values[i]` -/
def cell (i : Nat) : SortM W SQObject := do
  let s ← get
  match s.values[i]? with
  | some o => pure o
  | none => throw .fault

/-- `_Swap` of two cells -/
def swapCells (i j : Nat) : SortM W Unit := do
  let a ← cell i
  let b ← cell j
  let s ← get
  set { s with values := (s.values.set i b).set j a }

/-- A child of the node `root`. -/
abbrev Child (root : Nat) := { c : Nat // c = root * 2 ∨ c = root * 2 + 1 }

/-- The child of `root` that `_hsort_sift_down` compares it with. -/
def Comparer.maxChild (func : SQObject) (root bottom : Nat) : SortM W (Child root) :=
  if root * 2 = bottom then pure ⟨root * 2, .inl rfl⟩
  else do
    let a ← cell (root * 2)
    let b ← cell (root * 2 + 1)
    let ret ← C.sortCompare func a b
    if 0 < ret.toInt then pure ⟨root * 2, .inl rfl⟩ else pure ⟨root * 2 + 1, .inr rfl⟩

/-- `_hsort_sift_down` -/
def Comparer.hsortSiftDown (func : SQObject) (root bottom : Nat) : SortM W Unit :=
  if _ : root * 2 ≤ bottom then do
    let child ← C.maxChild func root bottom
    let a ← cell root
    let b ← cell child.1
    let ret ← C.sortCompare func a b
    if ret.toInt < 0 then
      if _ : root = child.1 then throw (.raised inconsistentCompare)
      else do
        swapCells root child.1
        Comparer.hsortSiftDown func child.1 bottom
    else pure ()
  else pure ()
termination_by bottom + 1 - root
decreasing_by
  have := child.2
  omega

/-- The first loop of `_hsort`, from the node `i` on down. -/
def Comparer.buildHeap (func : SQObject) (bottom : Nat) : Nat → SortM W Unit
  | 0 => C.hsortSiftDown func 0 bottom
  | i + 1 => do
    C.hsortSiftDown func (i + 1) bottom
    Comparer.buildHeap func bottom i

/-- The second loop of `_hsort`, from the cell `i` on down. -/
def Comparer.takeMaxima (func : SQObject) : Nat → SortM W Unit
  | 0 => pure ()
  | i + 1 => do
    swapCells 0 (i + 1)
    C.hsortSiftDown func 0 i
    Comparer.takeMaxima func i

/-- `_hsort` -/
def Comparer.hsort (func : SQObject) : SortM W Unit := do
  let arraySize := (← get).values.length
  C.buildHeap func (arraySize - 1) (arraySize / 2)
  C.takeMaxima func (arraySize - 1)

/-- The compare function of `array_sort`: the argument, if there is exactly one. -/
def sortFunc : List SQObject → SQObject
  | [func] => func
  | _ => .null

/-- `array_sort`, which returns the array itself. -/
def Comparer.arraySort (immutable : Bool) (args : List SQObject) : SortM W (Ret SQObject) :=
  if immutable then throw (.raised (.string immutableError))
  else do
    if 1 < (← get).values.length then C.hsort (sortFunc args)
    pure .self

end Quirrel.Array
