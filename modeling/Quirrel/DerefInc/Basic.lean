import Quirrel.Table.Invariant
import Quirrel.Class.Basic

/-!
# `SQVM::DerefInc`

`t[k] op= v`, `++` and `--` look the slot up themselves, keep a pointer to it while the
arithmetic runs, and write through the pointer. `readComputeWrite` is the same assignment
with `Get`, `ARITH_OP` and `Set`. The arithmetic may run a metamethod and is a parameter,
as are the metamethods behind `FallBackGet` and `FallBackSet`. A memory block has a number
of its own: a table or an array that gets new memory has another block.
-/

set_option autoImplicit false

namespace Quirrel.DerefInc

open Quirrel.Table (SQTable getNode)
open Quirrel.Class (SQClass SQInstance isField isNativeField memberIdx)

/-- A table with the block of `_nodes`. -/
structure TableObject (K V : Type) where
  table : SQTable K V
  block : Nat

/-- An array with the block of `_values`, whose size is a 32-bit number. -/
structure ArrayObject (V : Type) where
  values : List V
  block : Nat
  size_lt : values.length < 2 ^ 32

/-- The containers by address, and all that is not a container. -/
structure World (K V D R : Type) where
  tables : Nat → TableObject K V
  arrays : Nat → ArrayObject V
  instances : Nat → SQInstance V D
  rest : R

/-- The object of an `SQObjectPtr &self`. A class, a string and the like are `other`. -/
inductive Object (O : Type) where
  | table (addr : Nat)
  | array (addr : Nat)
  | inst (addr : Nat)
  | userdata (addr : Nat)
  | other (obj : O)

/-- The object whose slot is incremented, with its flag. -/
structure Self (O : Type) where
  obj : Object O
  immutable : Bool

/-- `SLOT_STATUS_OK`, `SLOT_STATUS_NO_MATCH`, `SLOT_STATUS_ERROR` -/
inductive SlotStatus (E α : Type) where
  | ok (a : α)
  | noMatch
  | error (err : E)

/-- The rest of the machine. -/
structure Vm (K V D O R E : Type) where
  tableOps : Table.ObjectOps K V
  classOps : Class.ObjectOps K V D
  /-- `_realval` is one function. -/
  realval_eq : classOps.realval = tableOps.realval
  /-- The class of an instance. It is locked, so it gets no more fields. It may get methods and statics:
  a metamethod that adds one while the instruction runs is left out. -/
  classes : Nat → SQClass K V
  /-- `tointeger` of a numeric key. -/
  tointeger : K → Option (BitVec 64)
  arithOp : Nat → V → V → World K V D R → Except E V × World K V D R
  fallBackGet : Self O → K → World K V D R → SlotStatus E V × World K V D R
  fallBackSet : Self O → K → V → World K V D R → SlotStatus E Unit × World K V D R
  /-- What `Get` finds in a class or a string. -/
  getOther : O → K → World K V D R → SlotStatus E V
  /-- `InvokeTypeMethod` -/
  typeMethod : Self O → K → World K V D R → Option V
  immutableError : Self O → E
  idxError : K → E
  indexingError : Self O → K → E
  settingError : Self O → E
  nativeFieldError : E

/-- What a statement does: a value, an error, or a write through a pointer to memory that
has been freed. -/
inductive Outcome (V E W : Type) where
  | value (v : V) (w : W)
  | error (err : E) (w : W)
  | undefined

variable {K V D O R E : Type} [DecidableEq K] (vm : Vm K V D O R E)

/-- `_realval` -/
def realval (v : V) : V := vm.tableOps.realval v

/-! ## Slots -/

/-- An `SQObjectPtr *` into a container. -/
inductive SlotPtr where
  | node (addr block index : Nat)
  | element (addr block index : Nat)
  | field (addr idx : Nat)

namespace World

variable (w : World K V D R)

/-- A table is replaced, its delegate stays. -/
def setTable (addr : Nat) (T : SQTable K V) : World K V D R :=
  { w with tables := Function.update w.tables addr { w.tables addr with table := T } }

/-- An element of an array is replaced. -/
def setElement (addr i : Nat) (v : V) : World K V D R :=
  { w with
    arrays := Function.update w.arrays addr
      ⟨(w.arrays addr).values.set i v, (w.arrays addr).block,
        (List.length_set ..).trans_lt (w.arrays addr).size_lt⟩ }

/-- An instance is replaced. -/
def setInstance (addr : Nat) (i : SQInstance V D) : World K V D R :=
  { w with instances := Function.update w.instances addr i }

/-- `SQTable::_Get`. In a well-formed table the chains end. -/
def node (addr : Nat) (key : K) : Option Nat :=
  (getNode vm.tableOps (w.tables addr).table key).join

/-- Whether there is still a slot behind the pointer. -/
def HasSlot : SlotPtr → Prop
  | .node addr block _ => (w.tables addr).block = block
  | .element addr block i => (w.arrays addr).block = block ∧ i < (w.arrays addr).values.length
  | .field _ _ => True

instance (p : SlotPtr) : Decidable (w.HasSlot p) :=
  match p with
  | .node addr block _ => inferInstanceAs (Decidable ((w.tables addr).block = block))
  | .element addr block i =>
    inferInstanceAs
      (Decidable ((w.arrays addr).block = block ∧ i < (w.arrays addr).values.length))
  | .field _ _ => inferInstanceAs (Decidable True)

/-- The value in a slot. -/
def load : SlotPtr → V
  | .node addr _ i => ((w.tables addr).table.nodes i).val
  | .element addr _ i => (w.arrays addr).values.getD i vm.classOps.null
  | .field addr idx => (w.instances addr).values.getD (memberIdx idx) vm.classOps.null

/-- The write through a pointer to a slot. -/
def store (p : SlotPtr) (v : V) : World K V D R :=
  match p with
  | .node addr _ i => w.setTable addr ((w.tables addr).table.setVal i v)
  | .element addr _ i => w.setElement addr i v
  | .field addr idx => w.setInstance addr ((w.instances addr).setMemberField idx v)

end World

/-! ## `Get` and `Set` -/

/-- `propagate_immutable` -/
def propagateImmutable (self : Self O) (v : V) : V :=
  if self.immutable then vm.classOps.setImmutable v else v

/-- `GetImpl` from `FallBackGet` on. -/
def getFallBack (self : Self O) (key : K) (w : World K V D R) :
    Except E V × World K V D R :=
  match vm.fallBackGet self key w with
  | (.ok v, w) => (.ok (propagateImmutable vm self v), w)
  | (.error err, w) => (.error err, w)
  | (.noMatch, w) =>
    match vm.typeMethod self key w with
    | some v => (.ok (propagateImmutable vm self v), w)
    | none => (.error (vm.idxError key), w)

/-- `SQVM::Get` with no flags. -/
def get (self : Self O) (key : K) (w : World K V D R) : Except E V × World K V D R :=
  match self.obj with
  | .table addr =>
    match w.node vm addr key with
    | some i =>
      (.ok (propagateImmutable vm self (realval vm ((w.tables addr).table.nodes i).val)), w)
    | none => getFallBack vm self key w
  | .array addr =>
    match vm.tointeger key with
    | none => getFallBack vm self key w
    | some nidx =>
      match (w.arrays addr).values[nidx.toNat]? with
      | some v => (.ok (propagateImmutable vm self (realval vm v)), w)
      | none => (.error (vm.idxError key), w)
  | .inst addr =>
    match (vm.classes addr).members.lookup key with
    | some idx =>
      (.ok (propagateImmutable vm self
        ((w.instances addr).getMember vm.classOps (vm.classes addr) idx)), w)
    | none => getFallBack vm self key w
  | .userdata _ => getFallBack vm self key w
  | .other obj =>
    match vm.getOther obj key w with
    | .ok v => (.ok (propagateImmutable vm self v), w)
    | .error err => (.error err, w)
    | .noMatch => getFallBack vm self key w

/-- `SQVM::Set` from `FallBackSet` on. -/
def setFallBack (self : Self O) (key : K) (val : V) (w : World K V D R) :
    Except E Unit × World K V D R :=
  match vm.fallBackSet self key val w with
  | (.ok _, w) => (.ok (), w)
  | (.error err, w) => (.error err, w)
  | (.noMatch, w) => (.error (vm.idxError key), w)

/-- `SQVM::Set` -/
def set (self : Self O) (key : K) (val : V) (w : World K V D R) :
    Except E Unit × World K V D R :=
  if self.immutable then (.error (vm.immutableError self), w)
  else
    match self.obj with
    | .table addr =>
      match w.node vm addr key with
      | some i => (.ok (), w.setTable addr ((w.tables addr).table.setVal i val))
      | none => setFallBack vm self key val w
    | .inst addr =>
      match (vm.classes addr).members.lookup key with
      | some idx =>
        if isField idx then
          (.ok (), w.setInstance addr ((w.instances addr).setMemberField idx val))
        else if isNativeField idx then
          match (w.instances addr).setNativeField vm.classOps (vm.classes addr) (memberIdx idx)
              val with
          | some i => (.ok (), w.setInstance addr i)
          | none => (.error vm.nativeFieldError, w)
        else setFallBack vm self key val w
      | none => setFallBack vm self key val w
    | .array addr =>
      match vm.tointeger key with
      | none => (.error (vm.indexingError self key), w)
      | some nidx =>
        if nidx.toNat < (w.arrays addr).values.length then
          (.ok (), w.setElement addr nidx.toNat val)
        else (.error (vm.idxError key), w)
    | .userdata _ => setFallBack vm self key val w
    | .other _ => (.error (vm.settingError self), w)

/-! ## The two assignments -/

/-- The result of the expression: a postfix operator gives the value as it was. -/
def result (postfixOp : Bool) (tmp target : V) : V := if postfixOp then tmp else target

/-- `t[k] = t[k] op v` -/
def readComputeWrite (op : Nat) (self : Self O) (key : K) (incr : V) (postfixOp : Bool)
    (w : World K V D R) : Outcome V E (World K V D R) :=
  match get vm self key w with
  | (.error err, w) => .error err w
  | (.ok tmp, w) =>
    match vm.arithOp op tmp incr w with
    | (.error err, w) => .error err w
    | (.ok target, w) =>
      match set vm self key target w with
      | (.error err, w) => .error err w
      | (.ok _, w) => .value (result postfixOp tmp target) w

/-- The `instanceValue` that `DerefInc` looks up. In an array it takes the low 32 bits of
the index. -/
def instanceValue (self : Self O) (key : K) (w : World K V D R) : Option SlotPtr :=
  match self.obj with
  | .inst addr =>
    match (vm.classes addr).members.lookup key with
    | some idx => if isField idx then some (.field addr idx) else none
    | none => none
  | .table addr => (w.node vm addr key).map (.node addr (w.tables addr).block)
  | .array addr =>
    match vm.tointeger key with
    | none => none
    | some n =>
      let nidx := (n.setWidth 32).toNat
      if nidx < (w.arrays addr).values.length then
        some (.element addr (w.arrays addr).block nidx)
      else none
  | .userdata _ | .other _ => none

/-- The native field that `DerefInc` finds. -/
def nativeField (self : Self O) (key : K) : Option (Nat × Nat) :=
  match self.obj with
  | .inst addr =>
    match (vm.classes addr).members.lookup key with
    | some idx => if isField idx then none else if isNativeField idx then some (addr, idx) else none
    | none => none
  | _ => none

/-- `SQVM::DerefInc` -/
def derefInc (op : Nat) (self : Self O) (key : K) (incr : V) (postfixOp : Bool)
    (w : World K V D R) : Outcome V E (World K V D R) :=
  if self.immutable then .error (vm.immutableError self) w
  else
    match nativeField vm self key with
    | some (addr, idx) =>
      let tmp := (w.instances addr).getMember vm.classOps (vm.classes addr) idx
      match vm.arithOp op tmp incr w with
      | (.error err, w) => .error err w
      | (.ok target, w) =>
        match (w.instances addr).setNativeField vm.classOps (vm.classes addr) (memberIdx idx)
            target with
        | none => .error vm.nativeFieldError w
        | some i => .value (result postfixOp tmp target) (w.setInstance addr i)
    | none =>
      match instanceValue vm self key w with
      | some p =>
        let tmp := realval vm (w.load vm p)
        match vm.arithOp op tmp incr w with
        | (.error err, w) => .error err w
        | (.ok target, w) =>
          if w.HasSlot p then .value (result postfixOp tmp target) (w.store p target)
          else .undefined
      | none =>
        match get vm self key w with
        | (.error err, w) => .error err w
        | (.ok tmp, w) =>
          match vm.arithOp op tmp incr w with
          | (.error err, w) => .error err w
          | (.ok target, w) =>
            match set vm self key target w with
            | (.error err, w) => .error err w
            | (.ok _, w) => .value (result postfixOp tmp target) w

end Quirrel.DerefInc
