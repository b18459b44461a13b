import Mathlib.Data.Set.Basic
import Quirrel.Vm.Object

/-!
# Instructions and their execution

A frame of the virtual machine: its registers, the cells of captured variables and the rest of the
program's state. While an outer is open its value lives in the cell and the register stands for the
cell; closing the outer copies the value back. What an instruction asks of other code (metamethods,
calls, tables) is a parameter, `VmServices`, and so is what the instructions do that no peephole
rewriting is about; these name the registers that they read, write and capture.
-/

set_option autoImplicit false

namespace Quirrel.Vm

/-! ## Instructions -/

/-- The instructions that write `TARGET` with the result of one operation on registers. -/
inductive ValueOp where
  | add
  | sub
  | mul
  | div
  | mod
  | bitw
  | addi
  | neg
  | not
  | bwnot
  | typeof
  | clone
  deriving DecidableEq

/-- `SQOpcode`; `value` stands for the operators, `other` for the instructions that no rewriting
names. -/
inductive Opcode where
  | load
  | loadint
  | loadfloat
  | loadbool
  | dload
  | move
  | dmove
  | loadnulls
  | loadcallee
  | getouter
  | setouter
  | get
  | getk
  | set
  | setk
  | seti
  | newslot
  | newslotk
  | eq
  | ne
  | prepcall
  | prepcallk
  | appendarray
  | value (op : ValueOp)
  | cmp
  | jcmp
  | jz
  | call
  | tailcall
  | return
  | close
  | other (code : Nat)
  deriving DecidableEq

/-- `SQInstruction` -/
structure SQInstruction where
  op : Opcode
  arg0 : Nat
  arg1 : Int
  arg2 : Nat
  arg3 : Nat
  deriving DecidableEq

/-- `MAX_FUNC_STACKSIZE`, also the value of an absent target. -/
def maxFuncStacksize : Nat := 0xFF

/-- `AAT_LITERAL` and its like. -/
inductive AppendArrayType where
  | stack
  | literal
  | int
  | float
  | bool

/-- The number that stands for the type in `_arg2`. -/
def AppendArrayType.code : AppendArrayType → Nat
  | .stack => 0
  | .literal => 1
  | .int => 2
  | .float => 3
  | .bool => 4

/-- `CMP_G` -/
def cmpG : Nat := 0

/-- `CMP_GE` -/
def cmpGE : Nat := 2

/-- `CMP_L` -/
def cmpL : Nat := 3

/-- `CMP_LE` -/
def cmpLE : Nat := 4

/-- `OP_GET_FLAG_NO_ERROR` -/
def opGetFlagNoError : Nat := 0x02

/-- `OP_GET_FLAG_KEEP_VAL` -/
def opGetFlagKeepVal : Nat := 0x04

/-! ## Registers and cells -/

/-- What all frames share: the cells of captured variables, and everything else. -/
structure Store (G : Type) where
  cells : Nat → SQObject
  heap : G

/-- A frame. `captured r` is the cell of the open outer at register `r`. -/
structure Machine (G : Type) where
  slots : Nat → SQObject
  captured : Nat → Option Nat
  store : Store G

variable {G : Type}

/-- `STK(r)` -/
def Machine.read (m : Machine G) (r : Nat) : SQObject :=
  match m.captured r with
  | some c => m.store.cells c
  | none => m.slots r

/-- `STK(r) = v` -/
def Machine.write (m : Machine G) (r : Nat) (v : SQObject) : Machine G :=
  match m.captured r with
  | some c => { m with store := { m.store with cells := Function.update m.store.cells c v } }
  | none => { m with slots := Function.update m.slots r v }

/-- The machine after a service has run. -/
def Machine.withStore (m : Machine G) (s : Store G) : Machine G := { m with store := s }

/-- `CloseOuters` from register `n` on. -/
def Machine.closeOuters (m : Machine G) (n : Nat) : Machine G where
  slots r := if n ≤ r then m.read r else m.slots r
  captured r := if n ≤ r then none else m.captured r
  store := m.store

/-! ## What execution asks for -/

/-- `SLOT_STATUS_OK`, `SLOT_STATUS_NO_MATCH` and `SLOT_STATUS_ERROR`; without a match an error is
raised unless the flags forbid it. -/
inductive SlotStatus where
  | ok (v : SQObject)
  | noMatch (e : SQObject)
  | error (e : SQObject)

/-- The result of an operator. One that fails may have written its target before. -/
inductive OpResult where
  | ok (v : SQObject)
  | error (e : SQObject) (written : Option SQObject)

/-- What a call does to the registers from its stack base on, and how it ends; one that fails may
have written its target before. -/
structure CallResult where
  clobbered : Nat → Option SQObject
  result : OpResult

/-- How another instruction ends. -/
inductive OtherExit where
  | next
  | jump
  | ret (v : SQObject)
  | error (e : SQObject)

/-- What another instruction does: register writes in order, and cells for registers that it
captures. -/
structure OtherResult where
  updates : List (Nat × SQObject)
  newCells : Nat → Option Nat
  exit : OtherExit

/-- What the instructions ask of the rest of the machine: lookups, metamethods, comparisons and
calls, each as a function of the store. -/
structure VmServices (G : Type) where
  callee : SQObject
  /-- The cell that outer value `i` of the running closure refers to. -/
  outerCell : Nat → Nat
  /-- `OT_CLOSURE` and not a generator. -/
  isPlainClosure : SQObject → Store G → Bool
  getImpl : SQObject → SQObject → Nat → Store G → Store G × SlotStatus
  set : SQObject → SQObject → SQObject → Store G → Store G × Option SQObject
  newSlot : SQObject → SQObject → SQObject → Store G → Store G × Option SQObject
  append : SQObject → SQObject → Store G → Store G
  objCmp : SQObject → SQObject → Store G → Store G × Except SQObject SQInteger
  value : ValueOp → Int → Nat → List SQObject → Store G → Store G × OpResult
  call : SQObject → List SQObject → Store G → Store G × CallResult
  /-- The registers that another instruction reads. -/
  reads : SQInstruction → List Nat
  /-- The registers that it writes whenever the next instruction follows. -/
  writes : SQInstruction → List Nat
  /-- The registers that it writes whenever it jumps. -/
  jumpWrites : SQInstruction → List Nat
  /-- The registers that it captures. -/
  captures : SQInstruction → List Nat
  other : SQInstruction → List SQObject → Store G → Store G × OtherResult
  writes_updates : ∀ i vals s, (other i vals s).2.exit = .next →
    ∀ r, r ∈ writes i → r ∈ (other i vals s).2.updates.map Prod.fst
  jumpWrites_updates : ∀ i vals s, (other i vals s).2.exit = .jump →
    ∀ r, r ∈ jumpWrites i → r ∈ (other i vals s).2.updates.map Prod.fst

/-- `IsFalse` -/
def isFalse : SQObject → Bool
  | .null => true
  | .integer i => i == 0
  | .float f => f == .ofInt 0
  | .bool b => !b
  | .string _ => false
  | .ref _ addr => addr == 0

/-- `IsEqual` -/
def isEqual : SQObject → SQObject → Bool
  | .float f, .float g => f == g
  | .integer i, .float g => Float32.Model.ofInt i.toInt == g
  | .float f, .integer j => f == Float32.Model.ofInt j.toInt
  | o1, o2 => decide (o1 = o2)

/-- What `CMP_OP` makes of the result of `ObjCmp`. -/
def cmpOp (op : Nat) (r : SQInteger) : SQObject :=
  if op = cmpG then .bool (decide (0 < r.toInt))
  else if op = cmpGE then .bool (decide (0 ≤ r.toInt))
  else if op = cmpL then .bool (decide (r.toInt < 0))
  else if op = cmpLE then .bool (decide (r.toInt ≤ 0))
  else .integer r

/-- What `CMP_OP_RES` makes of it, read as a truth value: `CMP_3W` keeps 32 bits. -/
def cmpOpRes (op : Nat) (r : SQInteger) : Bool :=
  if op = cmpG then decide (0 < r.toInt)
  else if op = cmpGE then decide (0 ≤ r.toInt)
  else if op = cmpL then decide (r.toInt < 0)
  else if op = cmpLE then decide (r.toInt ≤ 0)
  else r.setWidth 32 != 0

/-! ## Code with the registers that matter at its exits -/

/-- An instruction with the registers that are live after it: named, or on the target stack. After an
error these are the ones its handler reads, and `none` when no trap of the function is active, so
that the frame is left. -/
structure Emitted where
  instr : SQInstruction
  live : Set Nat
  onError : Option (Set Nat)
  onJump : Set Nat

/-- What one instruction comes to: the next one, a jump, a return or an error. -/
inductive Outcome (G : Type) where
  | next (m : Machine G)
  | jump (live : Set Nat) (m : Machine G)
  | ret (v : SQObject) (s : Store G)
  | error (e : SQObject) (live : Option (Set Nat)) (m : Machine G)

/-! ## Execution -/

section Exec

variable (vm : VmServices G) (lits : List SQObject)

/-- `ci->_literals[i]` -/
def literal (i : Int) : SQObject := lits.getD i.toNat .null

/-- `farg1`: the bits of `arg1` read as a float. -/
def farg (arg1 : Int) : SQObject :=
  .float (.ofBits (UInt32.ofInt arg1))

/-- What the instructions that write `TARGET` compute. -/
inductive Computed (G : Type) where
  | value (s : Store G) (v : SQObject)
  | keep (s : Store G)
  | fail (s : Store G) (e : SQObject) (written : Option SQObject)

/-- `_OP_GET` and `_OP_GETK` after the key is known. -/
def computeGet (self key : SQObject) (flags : Nat) (s : Store G) : Computed G :=
  match vm.getImpl self key flags s with
  | (s', .ok v) => .value s' v
  | (s', .error e) => .fail s' e none
  | (s', .noMatch e) =>
    if flags &&& opGetFlagNoError = 0 then .fail s' e none
    else if flags &&& opGetFlagKeepVal = 0 then .value s' .null
    else .keep s'

/-- The registers whose values an operator takes, in the order of its arguments. -/
def ValueOp.operands (op : ValueOp) (i : SQInstruction) : List Nat :=
  match op with
  | .addi => [i.arg2]
  | .neg | .not | .bwnot | .typeof | .clone => [i.arg1.toNat]
  | _ => [i.arg2, i.arg1.toNat]

/-- `COND_LITERAL` -/
def condLiteral (i : SQInstruction) (m : Machine G) : SQObject :=
  if i.arg3 ≠ 0 then literal lits i.arg1 else m.read i.arg1.toNat

/-- The value that an instruction computes for `TARGET`; `none` for the other instructions. -/
def compute (i : SQInstruction) (m : Machine G) : Option (Computed G) :=
  match i.op with
  | .load => some (.value m.store (literal lits i.arg1))
  | .loadint => some (.value m.store (.integer (BitVec.ofInt 64 i.arg1)))
  | .loadfloat => some (.value m.store (farg i.arg1))
  | .loadbool => some (.value m.store (.bool (i.arg1 != 0)))
  | .get => some (computeGet vm (m.read i.arg2) (m.read i.arg1.toNat) i.arg3 m.store)
  | .getk => some (computeGet vm (m.read i.arg2) (literal lits i.arg1) i.arg3 m.store)
  | .eq => some (.value m.store (.bool (isEqual (m.read i.arg2) (condLiteral lits i m))))
  | .ne => some (.value m.store (.bool (!isEqual (m.read i.arg2) (condLiteral lits i m))))
  | .value op =>
    match vm.value op i.arg1 i.arg3 ((op.operands i).map m.read) m.store with
    | (s, .ok v) => some (.value s v)
    | (s, .error e written) => some (.fail s e written)
  | .cmp =>
    match vm.objCmp (m.read i.arg2) (m.read i.arg1.toNat) m.store with
    | (s, .ok r) => some (.value s (cmpOp i.arg3 r))
    | (s, .error e) => some (.fail s e none)
  | _ => none

/-- Writes a register when there is a value. -/
def Machine.writeOpt (m : Machine G) (r : Nat) (v : Option SQObject) : Machine G :=
  match v with
  | some v => m.write r v
  | none => m

/-- The end of an instruction that writes `TARGET`. -/
def assignTarget (i : Emitted) (m : Machine G) : Computed G → Outcome G
  | .value s v => .next ((m.withStore s).write i.instr.arg0 v)
  | .keep s => .next (m.withStore s)
  | .fail s e written => .error e i.onError ((m.withStore s).writeOpt i.instr.arg0 written)

/-- `if(arg0 != 0xFF) TARGET = STK(r)` -/
def Machine.copyTarget (m : Machine G) (arg0 r : Nat) : Machine G :=
  if arg0 ≠ maxFuncStacksize then m.write arg0 (m.read r) else m

/-- A store to a slot, `Set` or `NewSlot`, and what follows it. -/
def execStore (i : Emitted) (m : Machine G) (result : Store G × Option SQObject) : Outcome G :=
  match result with
  | (s, some e) => .error e i.onError (m.withStore s)
  | (s, none) => .next ((m.withStore s).copyTarget i.instr.arg0 i.instr.arg3)

/-- `_OP_PREPCALL` and `_OP_PREPCALLK` after the key is known. -/
def execPrepcall (i : Emitted) (m : Machine G) (key : SQObject) : Outcome G :=
  match vm.getImpl (m.read i.instr.arg2) key 0 m.store with
  | (s, .ok v) =>
    let m' := m.withStore s
    .next ((m'.write i.instr.arg3 (m'.read i.instr.arg2)).write i.instr.arg0 v)
  | (s, .error e) => .error e i.onError (m.withStore s)
  | (s, .noMatch e) => .error e i.onError (m.withStore s)

/-- The value that `_OP_APPENDARRAY` appends. -/
def appendValue (i : SQInstruction) (m : Machine G) : SQObject :=
  if i.arg2 = AppendArrayType.stack.code then m.read i.arg1.toNat
  else if i.arg2 = AppendArrayType.literal.code then literal lits i.arg1
  else if i.arg2 = AppendArrayType.int.code then .integer (BitVec.ofInt 64 i.arg1)
  else if i.arg2 = AppendArrayType.float.code then farg i.arg1
  else .bool (i.arg1 != 0)

/-- The arguments of a call. -/
def callArgs (i : SQInstruction) (m : Machine G) : List SQObject :=
  (List.range i.arg3).map fun k => m.read (i.arg2 + k)

/-- The frame of the callee lies on the registers from `base` on. -/
def Machine.clobber (m : Machine G) (base : Nat) (f : Nat → Option SQObject) : Machine G :=
  { m with slots := fun r => if base ≤ r then (f (r - base)).getD (m.slots r) else m.slots r }

/-- `_OP_CALL`: the callee may change captured registers before the result is written. -/
def execCall (i : Emitted) (m : Machine G) : Outcome G :=
  match vm.call (m.read i.instr.arg1.toNat) (callArgs i.instr m) m.store with
  | (s, r) =>
    let m' := (m.withStore s).clobber i.instr.arg2 r.clobbered
    match r.result with
    | .ok v => .next (if i.instr.arg0 ≠ maxFuncStacksize then m'.write i.instr.arg0 v else m')
    | .error e written =>
      .error e i.onError
        (if i.instr.arg0 ≠ maxFuncStacksize then m'.writeOpt i.instr.arg0 written else m')

/-- `_OP_TAILCALL`: a plain closure takes the place of the frame, whose outers are closed first. -/
def execTailcall (i : Emitted) (m : Machine G) : Outcome G :=
  if vm.isPlainClosure (m.read i.instr.arg1.toNat) m.store then
    match vm.call (m.read i.instr.arg1.toNat) (callArgs i.instr m) (m.closeOuters 0).store with
    | (s, r) =>
      match r.result with
      | .ok v => .ret v s
      | .error e _ => .error e i.onError ((m.closeOuters 0).withStore s)
  else execCall vm i m

/-- The cells that an instruction has made for the registers it captures. -/
def Machine.capture (m : Machine G) (regs : List Nat) (newCells : Nat → Option Nat) : Machine G :=
  { m with captured := fun r => if r ∈ regs then (newCells r).or (m.captured r) else m.captured r }

/-- Register writes in order. -/
def Machine.writeAll (m : Machine G) (updates : List (Nat × SQObject)) : Machine G :=
  updates.foldl (fun m u => m.write u.1 u.2) m

/-- Any instruction that the optimizer does not know. -/
def execOther (i : Emitted) (m : Machine G) : Outcome G :=
  match vm.other i.instr ((vm.reads i.instr ++ vm.captures i.instr).map m.read) m.store with
  | (s, r) =>
    let m' := ((m.withStore s).capture (vm.captures i.instr) r.newCells).writeAll r.updates
    match r.exit with
    | .next => .next m'
    | .jump => .jump i.onJump m'
    | .ret v => .ret v m'.store
    | .error e => .error e i.onError m'

/-- The registers that `_OP_LOADNULLS` sets. -/
def nullRange (i : SQInstruction) : List Nat :=
  (List.range i.arg1.toNat).map fun k => i.arg0 + k

/-- One instruction. -/
def exec (i : Emitted) (m : Machine G) : Outcome G :=
  match i.instr.op with
  | .dload =>
    .next ((m.write i.instr.arg0 (literal lits i.instr.arg1)).write i.instr.arg2
      (literal lits i.instr.arg3))
  | .move => .next (m.write i.instr.arg0 (m.read i.instr.arg1.toNat))
  | .dmove =>
    let m' := m.write i.instr.arg0 (m.read i.instr.arg1.toNat)
    .next (m'.write i.instr.arg2 (m'.read i.instr.arg3))
  | .loadnulls => .next (m.writeAll ((nullRange i.instr).map fun r => (r, .null)))
  | .loadcallee =>
    let m' := m.write i.instr.arg0 vm.callee
    .next (if i.instr.arg2 ≠ 0 then m'.write i.instr.arg2 (m'.read i.instr.arg3) else m')
  | .getouter =>
    let m' := m.write i.instr.arg0 (m.store.cells (vm.outerCell i.instr.arg1.toNat))
    .next (if i.instr.arg2 ≠ 0 then m'.write i.instr.arg2 (m'.read i.instr.arg3) else m')
  | .setouter =>
    let cells := Function.update m.store.cells (vm.outerCell i.instr.arg1.toNat)
      (m.read i.instr.arg2)
    .next ((m.withStore { m.store with cells := cells }).copyTarget i.instr.arg0 i.instr.arg2)
  | .set =>
    execStore i m (vm.set (m.read i.instr.arg2) (m.read i.instr.arg1.toNat)
      (m.read i.instr.arg3) m.store)
  | .setk =>
    execStore i m (vm.set (m.read i.instr.arg2) (literal lits i.instr.arg1)
      (m.read i.instr.arg3) m.store)
  | .seti =>
    execStore i m (vm.set (m.read i.instr.arg2) (.integer (BitVec.ofInt 64 i.instr.arg1))
      (m.read i.instr.arg3) m.store)
  | .newslot =>
    execStore i m (vm.newSlot (m.read i.instr.arg2) (m.read i.instr.arg1.toNat)
      (m.read i.instr.arg3) m.store)
  | .newslotk =>
    execStore i m (vm.newSlot (m.read i.instr.arg2) (literal lits i.instr.arg1)
      (m.read i.instr.arg3) m.store)
  | .prepcall => execPrepcall vm i m (m.read i.instr.arg1.toNat)
  | .prepcallk => execPrepcall vm i m (literal lits i.instr.arg1)
  | .appendarray =>
    .next (m.withStore (vm.append (m.read i.instr.arg0) (appendValue lits i.instr m) m.store))
  | .jcmp =>
    match vm.objCmp (m.read i.instr.arg2) (m.read i.instr.arg0) m.store with
    | (s, .ok r) =>
      if (cmpOpRes (i.instr.arg3 % 8) r).toNat = i.instr.arg3 / 8 then
        .jump i.onJump (m.withStore s)
      else .next (m.withStore s)
    | (s, .error e) => .error e i.onError (m.withStore s)
  | .jz =>
    if (isFalse (m.read i.instr.arg0)).toNat ≠ i.instr.arg2 then .jump i.onJump m else .next m
  | .call => execCall vm i m
  | .tailcall => execTailcall vm i m
  | .return =>
    .ret (if i.instr.arg0 ≠ maxFuncStacksize then m.read i.instr.arg1.toNat else .null) m.store
  | .close => .next (m.closeOuters i.instr.arg1.toNat)
  | .other _ => execOther vm i m
  | _ =>
    match compute vm lits i.instr m with
    | some c => assignTarget i m c
    | none => .next m

/-- A list of instructions up to its first exit. -/
def runCode : List Emitted → Machine G → Outcome G
  | [], m => .next m
  | i :: code, m =>
    match exec vm lits i m with
    | .next m' => runCode code m'
    | o => o

end Exec

end Quirrel.Vm
