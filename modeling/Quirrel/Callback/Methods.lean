import Mathlib.Algebra.Group.Int.Defs
import Mathlib.Algebra.GroupWithZero.Nat
import Quirrel.Callback.Basic

/-!
# The loops

The methods of arrays and tables that call a function for each element. A loop is given by what one
iteration does with the frame and the local variables; a negative outcome of `Get` or `Next` ends it
or, in the loops that count, leaves the variable as it was.
-/

set_option autoImplicit false

namespace Quirrel.Callback

open Lib

variable {ω σ : Type}

/-- What a method returns. -/
inductive Ret (ω : Type) where
  | lost
  | error
  | nothing
  | value (v : Value ω)
  | newArray (vals : List (Value ω))
  /-- The slots in the order in which they are inserted; a later one replaces an earlier one of the
  same key. -/
  | newTable (slots : List (Value ω × Value ω))
  | self

/-- One iteration of a native's loop, over its locals. -/
abbrev LoopStep (ω σ L : Type) := Step (Frame ω σ × L) (Frame ω σ × Ret ω)

/-- The loop goes on, behind the `Pop` of an iteration. -/
def goOn {L : Type} (pops : Nat) (it : Iteration ω) (f : Frame ω σ) (locals : L) :
    LoopStep ω σ L :=
  .next ((f.pop pops).finish it, locals)

/-- The method fails behind the `Pop` of an iteration. -/
def failed {L : Type} (pops : Nat) (it : Iteration ω) (f : Frame ω σ) : LoopStep ω σ L :=
  .done ((f.pop pops).finish it, .error)

/-- The rest of an iteration behind its call. -/
def Invoked.andThen {L : Type} (x : Invoked ω σ)
    (k : Frame ω σ → Iteration ω → Except Raised (Value ω) → LoopStep ω σ L) : LoopStep ω σ L :=
  match x with
  | .lost f => .done (f, .lost)
  | .back f it res => k f it res

/-! ## Loops that count -/

/-- The promise of the loops with one element: the value, its key and the container. -/
def elementArgs (o key : Value ω) (val : Value ω) : List (Value ω) :=
  [.null, val, key, o]

/-- The promise of `reduce`. -/
def accumArgs (accum o key : Value ω) (val : Value ω) : List (Value ω) :=
  [.null, accum, val, key, o]

/-- The locals of the loop of `map` and `apply`. -/
structure MapLocals (ω : Type) where
  n : Nat
  temp : Value ω
  dest : List (Value ω)

/-- An iteration of `__map_array` over the array `src`. Without `append` the results go into the array
itself. -/
def mapArrayStep (vm : Vm ω σ) (src : ω) (size nArgs : Nat) (append : Bool) :
    Frame ω σ × MapLocals ω → LoopStep ω σ (MapLocals ω)
  | (f, ⟨n, temp, dest⟩) =>
    if n < size then
      let item := (vm.arrays f.heap src)[n]?
      let temp := item.getD temp
      (invoke vm nArgs [.null, temp] (.integer n) (.object src)
          (item.map (elementArgs (.object src) (.integer n))) f.top f).andThen fun f it res =>
        match res with
        | .error e =>
          if append ∧ e = .null then goOn nArgs it f ⟨n + 1, temp, dest⟩
          else failed nArgs it f
        | .ok temp =>
          if append then goOn nArgs it f ⟨n + 1, temp, dest ++ [temp]⟩
          else goOn nArgs it { f with heap := vm.set f.heap src n temp } ⟨n + 1, temp, dest⟩
    else .done (f, if append then .newArray dest else .self)

/-- The locals of the loop of `reduce`. -/
structure ReduceLocals (ω : Type) where
  n : Nat
  accum : Value ω
  other : Value ω

/-- An iteration of `array_reduce` -/
def arrayReduceStep (vm : Vm ω σ) (a : ω) (size nArgs : Nat) :
    Frame ω σ × ReduceLocals ω → LoopStep ω σ (ReduceLocals ω)
  | (f, ⟨n, accum, other⟩) =>
    if n < size then
      let item := (vm.arrays f.heap a)[n]?
      let other := item.getD other
      (invoke vm nArgs [.null, accum, other] (.integer n) (f.stackGet 1)
          (item.map (accumArgs accum (.object a) (.integer n))) f.top f).andThen fun f it res =>
        match res with
        | .error _ => failed nArgs it f
        | .ok accum => goOn nArgs it f ⟨n + 1, accum, other⟩
    else .done (f, .value accum)

/-- The locals of the loop of `filter`. -/
structure FilterLocals (ω : Type) where
  n : Nat
  val : Value ω
  ret : List (Value ω)

/-- An iteration of `array_filter` -/
def arrayFilterStep (vm : Vm ω σ) (a : ω) (size nArgs : Nat) :
    Frame ω σ × FilterLocals ω → LoopStep ω σ (FilterLocals ω)
  | (f, ⟨n, val, ret⟩) =>
    if n < size then
      let item := (vm.arrays f.heap a)[n]?
      let val := item.getD val
      (invoke vm nArgs [.null, val] (.integer n) (f.stackGet 1)
          (item.map (elementArgs (.object a) (.integer n))) f.top f).andThen fun f it res =>
        match res with
        | .error _ => failed nArgs it f
        | .ok temp =>
          goOn nArgs it f ⟨n + 1, val, if vm.isFalse temp then ret else ret ++ [val]⟩
    else .done (f, .newArray ret)

/-! ## Loops over the nodes of a table -/

/-- `SQTable::Next`: the first used node from `idx` on and the index behind it. -/
def tableNext (nodes : List (Option (Value ω × Value ω))) (idx : Nat) :
    Option (Value ω × Value ω × Nat) :=
  match nodes with
  | [] => none
  | node :: nodes =>
    match idx, node with
    | 0, some (key, val) => some (key, val, 1)
    | 0, none => (tableNext nodes 0).map fun (key, val, i) => (key, val, i + 1)
    | idx + 1, _ => (tableNext nodes idx).map fun (key, val, i) => (key, val, i + 1)

/-- The locals of a loop over a table. -/
structure TableLocals (ω : Type) where
  itr : Nat
  ret : List (Value ω × Value ω)

/-- An iteration of `__map_table` over the table `src` -/
def mapTableStep (vm : Vm ω σ) (src : ω) (nArgs : Nat) :
    Frame ω σ × TableLocals ω → LoopStep ω σ (TableLocals ω)
  | (f, ⟨itr, dest⟩) =>
    match tableNext (vm.tables f.heap src) itr with
    | none => .done (f, .newTable dest)
    | some (key, val, itr) =>
      (invoke vm nArgs [.null, val] key (.object src)
          (some (elementArgs (.object src) key val)) f.top f).andThen fun f it res =>
        match res with
        | .error e => if e = .null then goOn nArgs it f ⟨itr, dest⟩ else failed nArgs it f
        | .ok temp => goOn nArgs it f ⟨itr, dest ++ [(key, temp)]⟩

/-- An iteration of `table_filter` -/
def tableFilterStep (vm : Vm ω σ) (tbl : ω) (nArgs : Nat) :
    Frame ω σ × TableLocals ω → LoopStep ω σ (TableLocals ω)
  | (f, ⟨itr, ret⟩) =>
    match tableNext (vm.tables f.heap tbl) itr with
    | none => .done (f, .newTable ret)
    | some (key, val, itr) =>
      (invoke vm nArgs [.null, val] key (f.stackGet 1)
          (some (elementArgs (.object tbl) key val)) f.top f).andThen fun f it res =>
        match res with
        | .error _ => failed nArgs it f
        | .ok temp =>
          goOn nArgs it f ⟨itr, if vm.isFalse temp then ret else ret ++ [(key, val)]⟩

/-- The locals of `reduce` on a table. -/
structure TableReduceLocals (ω : Type) where
  itr : Nat
  /-- `none` before `gotAccum`. -/
  accum : Option (Value ω)

/-- An iteration of `table_reduce`. The first element becomes the accumulator if there is none. -/
def tableReduceStep (vm : Vm ω σ) (tbl : ω) (nArgs : Nat) :
    Frame ω σ × TableReduceLocals ω → LoopStep ω σ (TableReduceLocals ω)
  | (f, ⟨itr, accum⟩) =>
    match tableNext (vm.tables f.heap tbl) itr with
    | none => .done (f, match accum with | some v => .value v | none => .nothing)
    | some (key, val, itr) =>
      match accum with
      | none => .next (f, ⟨itr, some val⟩)
      | some accum =>
        (invoke vm nArgs [.null, accum, val] key (f.stackGet 1)
            (some (accumArgs accum (.object tbl) key val)) f.top f).andThen fun f it res =>
          match res with
          | .error _ => failed nArgs it f
          | .ok accum => goOn nArgs it f ⟨itr, some accum⟩

/-! ## Loops with the iterator on the stack -/

/-- `TranslateIndex`, as an unsigned number -/
def translateIndex : Value ω → Nat
  | .integer n => (n % 2 ^ 64).toNat
  | _ => 0

/-- `SQTable::Next` or `SQArray::Next` -/
def next (vm : Vm ω σ) (heap : σ) (o : ω) (idx : Nat) : Option (Value ω × Value ω × Nat) :=
  if vm.isArray o then
    match (vm.arrays heap o)[idx]? with
    | some val => some (.integer idx, val, idx + 1)
    | none => none
  else tableNext (vm.tables heap o) idx

/-- `sq_next` of the first argument: the topmost cell is the iterator, behind which it pushes the key
and the value. -/
def sqNext (vm : Vm ω σ) (f : Frame ω σ) : Option (Value ω × Value ω × Frame ω σ) :=
  match f.stackGet 1 with
  | .object o =>
    match next vm f.heap o (translateIndex (f.stack.getLastD .null)) with
    | some (key, val, idx) =>
      some (key, val, { f with stack := f.stack.dropLast ++ [.integer idx, key, val] })
    | none => none
  | _ => none

/-- An iteration of `container_each`. `o` is the container as it was at the beginning. -/
def containerEachStep (vm : Vm ω σ) (o : ω) (nArgs : Nat) :
    Frame ω σ × Unit → LoopStep ω σ Unit
  | (f, _) =>
    match sqNext vm f with
    | none => .done (f.pop 1, .nothing)
    | some (key, val, f') =>
      (invoke vm nArgs [.null, val] key (f.stackGet 1)
          (some (elementArgs (.object o) key val)) f.top f').andThen fun f it res =>
        match res with
        | .error _ => failed (2 + nArgs) it f
        | .ok _ => goOn (2 + nArgs) it f ()

/-- An iteration of `container_findindex` or `container_findvalue`, which return the key or the value
of the element that they look for: the cell `offset` behind the iterator. -/
def findStep (vm : Vm ω σ) (o : ω) (nArgs offset : Nat) (default : Ret ω) :
    Frame ω σ × Unit → LoopStep ω σ Unit
  | (f, _) =>
    match sqNext vm f with
    | none => .done (f.pop 1, default)
    | some (key, val, f') =>
      (invoke vm nArgs [.null, val] key (f.stackGet 1)
          (some (elementArgs (.object o) key val)) f.top f').andThen fun f it res =>
        match res with
        | .error _ => .done (f.leave it, .error)
        | .ok tmp =>
          if vm.isFalse tmp then goOn (2 + nArgs) it f ()
          else .done (f.leave it, .value ((f.stack[it.before + offset]?).getD .null))

/-- `container_findindex` -/
def containerFindindexStep (vm : Vm ω σ) (o : ω) (nArgs : Nat) :
    Frame ω σ × Unit → LoopStep ω σ Unit :=
  findStep vm o nArgs 0 .nothing

/-- `container_findvalue`, with the default that it was called with. -/
def containerFindvalueStep (vm : Vm ω σ) (o : ω) (nArgs : Nat) (default : Option (Value ω)) :
    Frame ω σ × Unit → LoopStep ω σ Unit :=
  findStep vm o nArgs 1 (match default with | some v => .value v | none => .nothing)

/-! ## The methods -/

/-- The natives that take a callback. -/
inductive Method where
  | arrayMap
  | arrayApply
  | arrayReduce
  | arrayFilter
  | tableMap
  | tableFilter
  | tableReduce
  | each
  | findindex
  | findvalue
  deriving DecidableEq

/-- The number of arguments that the loop pushes in any case. -/
def Method.always : Method → Nat
  | .arrayReduce => 3
  | .tableReduce => 3
  | _ => 2

/-- The number of arguments that the method can pass, `this` included. -/
def Method.supported (m : Method) : Nat := m.always + 2

/-- The frame and the result of a method after at most `fuel` iterations; no result while the loop
runs. -/
def outcome {L : Type} : LoopStep ω σ L → Frame ω σ × Option (Ret ω)
  | .next (f, _) => (f, none)
  | .done (f, ret) => (f, some ret)

/-- A method on the container `o` with a callback of which `nArgs` is the number of arguments, for at
most `fuel` iterations. -/
def Method.loop (vm : Vm ω σ) (fuel : Nat) (m : Method) (o : ω) (nArgs : Nat)
    (third : Option (Value ω)) (f : Frame ω σ) : Frame ω σ × Option (Ret ω) :=
  let size := (vm.arrays f.heap o).length
  match m with
  | .arrayMap =>
    outcome (Step.iterate (mapArrayStep vm o size nArgs true) fuel (f, ⟨0, .null, []⟩))
  | .arrayApply =>
    outcome (Step.iterate (mapArrayStep vm o size nArgs false) fuel (f, ⟨0, .null, []⟩))
  | .arrayReduce =>
    match third, (vm.arrays f.heap o)[0]? with
    | some accum, _ =>
      outcome (Step.iterate (arrayReduceStep vm o size nArgs) fuel (f, ⟨0, accum, .null⟩))
    | none, some accum =>
      outcome (Step.iterate (arrayReduceStep vm o size nArgs) fuel (f, ⟨1, accum, .null⟩))
    | none, none => (f, some .nothing)
  | .arrayFilter =>
    outcome (Step.iterate (arrayFilterStep vm o size nArgs) fuel (f, ⟨0, .null, []⟩))
  | .tableMap => outcome (Step.iterate (mapTableStep vm o nArgs) fuel (f, ⟨0, []⟩))
  | .tableFilter => outcome (Step.iterate (tableFilterStep vm o nArgs) fuel (f, ⟨0, []⟩))
  | .tableReduce => outcome (Step.iterate (tableReduceStep vm o nArgs) fuel (f, ⟨0, third⟩))
  | .each =>
    outcome (Step.iterate (containerEachStep vm o nArgs) fuel (f.push [.null], ()))
  | .findindex =>
    outcome (Step.iterate (containerFindindexStep vm o nArgs) fuel (f.push [.null], ()))
  | .findvalue =>
    outcome (Step.iterate (containerFindvalueStep vm o nArgs third) fuel (f.push [.null], ()))

/-- A method in its frame: the container and the callback are its first two arguments, and the third
is optional. -/
def Method.run (vm : Vm ω σ) (fuel : Nat) (m : Method) (f : Frame ω σ) :
    Frame ω σ × Option (Ret ω) :=
  match f.stackGet 1, f.stackGet 2 with
  | .object o, .object c =>
    match vm.callee c with
    | some callee =>
      m.loop vm fuel o (getAllowedArgsCount callee m.supported) f.stack[f.stackbase + 2]? f
    | none => (f, some .error)
  | _, _ => (f, some .error)

end Quirrel.Callback
