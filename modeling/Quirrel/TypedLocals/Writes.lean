import Mathlib.Logic.Function.Basic
import Quirrel.Vm.Arith

set_option autoImplicit false

/-!
# Writes of local variables

The instructions that `CodeGenVisitor` emits for each way of writing a local variable or a captured
one, and what the machine does on them. An exception leaves the memory as the instructions before it
made it; exceptions are not told apart.
-/

namespace Quirrel.TypedLocals

open Vm

/-! ## Type masks -/

/-- A set of types. -/
abbrev TypeMask := BitVec 32

/-- `_RT_NULL` -/
def rtNull : TypeMask := 0x00000001#32

/-- `~0u`, the mask of a variable that is declared without a type. -/
def anyMask : TypeMask := BitVec.allOnes 32

/-- `check_typemask` -/
def checkTypemask (o : SQObject) (mask : TypeMask) : Bool :=
  if o.sqType ≠ otNull then mask &&& o.sqType ≠ 0#32 else mask &&& rtNull ≠ 0#32

/-- `checkInferredType`, where it returns; its diagnostic is an error in the source text. -/
def checkInferredType (declaredMask inferredMask : TypeMask) : Bool :=
  declaredMask ≠ anyMask ∧ inferredMask ≠ anyMask ∧ inferredMask &&& ~~~declaredMask = 0#32

theorem checkTypemask_anyMask (o : SQObject) : checkTypemask o anyMask = true := by
  unfold checkTypemask
  split
  · next h => rw [anyMask, BitVec.allOnes_and]; exact decide_eq_true h
  · decide

/-! ## Instructions -/

/-- The instructions that write variables, and the check of a type. -/
inductive Instr where
  | move (arg0 arg1 : Nat)
  | loadnulls (arg0 : Nat)
  | arith (op : ArithOp) (arg0 arg1 arg2 : Nat)
  | incl (arg1 : Nat) (sarg3 : SQInteger)
  | pincl (arg0 arg1 : Nat) (sarg3 : SQInteger)
  | getouter (arg0 arg1 : Nat)
  | setouter (arg0 arg1 arg2 : Nat)
  | getk (arg0 arg2 : Nat) (keepVal : Bool)
  | checkType (arg0 : Nat) (arg1 : TypeMask)

/-- Where a name leads: a register of the function, or one of its outer values. -/
inductive Target where
  | localVar (pos : Nat)
  | outer (pos : Nat)

/-- A write with the registers that the code generator chose. `mask` is the variable's declared type
and `inferred` what the compiler infers for the value. A destructuring declaration first declares
its variables and then reads one `field` after another. -/
inductive Write where
  | declare (dest src : Nat) (mask inferred : TypeMask)
  | declareNull (dest : Nat) (mask : TypeMask)
  | field (target src : Nat) (mask : TypeMask) (hasDefault : Bool)
  | assign (var : Target) (src target : Nat) (mask inferred : TypeMask)
  | compoundArith (op : ArithOp) (var : Target) (val tmp target : Nat) (mask : TypeMask)
  | inc (isPostfix : Bool) (var : Target) (tmp1 tmp2 : Nat) (diff : SQInteger)

/-- `EmitCheckType` -/
def emitCheckType (target : Nat) (mask : TypeMask) : List Instr :=
  if mask ≠ anyMask ∧ target < 256 then [.checkType target mask] else []

/-- `EmitCheckType`, where the inferred type does not make it superfluous. -/
def emitCheckUnlessInferred (target : Nat) (mask inferred : TypeMask) : List Instr :=
  if checkInferredType mask inferred then [] else emitCheckType target mask

/-- `visitVarDecl`, `visitDestructuringDecl`, `emitAssign`, `emitCompoundArith` and `visitIncExpr`,
after the operands. -/
def emit : Write → List Instr
  | .declare dest src mask inferred =>
    (if dest ≠ src then [.move dest src] else []) ++ emitCheckUnlessInferred dest mask inferred
  | .declareNull dest _ => [.loadnulls dest]
  | .field target src mask hasDefault => .getk target src hasDefault :: emitCheckType target mask
  | .assign (.localVar dst) src _ mask inferred =>
    .move dst src :: emitCheckUnlessInferred dst mask inferred
  | .assign (.outer pos) src target mask inferred =>
    .setouter target pos src :: emitCheckUnlessInferred src mask inferred
  | .compoundArith op (.localVar p1) val _ _ mask => .arith op p1 val p1 :: emitCheckType p1 mask
  | .compoundArith op (.outer pos) val tmp target mask =>
    .getouter tmp pos :: .arith op tmp val tmp :: (emitCheckType tmp mask ++
      [.setouter target pos tmp])
  | .inc false (.localVar src) _ _ diff => [.incl src diff]
  | .inc true (.localVar src) dst _ diff => [.pincl dst src diff]
  | .inc false (.outer pos) tmp1 _ diff =>
    [.getouter tmp1 pos, .pincl tmp1 tmp1 diff, .setouter tmp1 pos tmp1]
  | .inc true (.outer pos) tmp1 tmp2 diff =>
    [.getouter tmp2 pos, .pincl tmp1 tmp2 diff, .setouter tmp2 pos tmp2]

/-! ## The machine -/

/-- A stack slot, or the storage that an `SQOuter` has of its own once it is closed. -/
inductive Addr where
  | slot (i : Nat)
  | box (i : Nat)
  deriving DecidableEq

/-- Registers and boxes. -/
abbrev Memory := Addr → SQObject

/-- The registers of a running function and the outer values of its closure. -/
structure Site where
  reg : Nat → Addr
  outer : Nat → Addr

/-- What `Get` finds. -/
inductive Found where
  | slot (o : SQObject)
  | missing
  | raised

/-- What an instruction gets from the code that it calls: the result of a metamethod (`none` where it
raises an exception), and what `Get` finds. -/
structure Answers where
  metaMethod : Option SQObject
  get : Found

variable (vm : VmOps)

/-- `_ARITH_`, with the answer of a metamethod. -/
def arith (ans : Answers) (op : ArithOp) (o1 o2 : SQObject) : Option SQObject :=
  match vm.arithOp op o1 o2 with
  | .value o => some o
  | .error _ => none
  | .callMetaMethod _ _ _ _ => ans.metaMethod

/-- The value that `_OP_INCL` and `_OP_PINCL` store. -/
def increment (ans : Answers) (diff : SQInteger) : SQObject → Option SQObject
  | .integer i => some (.integer (i + diff))
  | o => arith vm ans .add o (.integer diff)

/-- What an instruction leaves behind: the memory, where it completes or where it raises an
exception. -/
inductive Outcome where
  | done (m : Memory)
  | raised (m : Memory)

/-- The memory afterwards, also after an error. -/
def Outcome.memory : Outcome → Memory
  | .done m | .raised m => m

/-- One instruction. -/
def exec (site : Site) (ans : Answers) (m : Memory) : Instr → Outcome
  | .move arg0 arg1 => .done (Function.update m (site.reg arg0) (m (site.reg arg1)))
  | .loadnulls arg0 => .done (Function.update m (site.reg arg0) .null)
  | .arith op arg0 arg1 arg2 =>
    match arith vm ans op (m (site.reg arg2)) (m (site.reg arg1)) with
    | some o => .done (Function.update m (site.reg arg0) o)
    | none => .raised m
  | .incl arg1 sarg3 =>
    match increment vm ans sarg3 (m (site.reg arg1)) with
    | some o => .done (Function.update m (site.reg arg1) o)
    | none => .raised m
  | .pincl arg0 arg1 sarg3 =>
    match increment vm ans sarg3 (m (site.reg arg1)) with
    | some o =>
      .done (Function.update (Function.update m (site.reg arg0) (m (site.reg arg1)))
        (site.reg arg1) o)
    | none => .raised m
  | .getouter arg0 arg1 => .done (Function.update m (site.reg arg0) (m (site.outer arg1)))
  | .setouter arg0 arg1 arg2 =>
    let m' := Function.update m (site.outer arg1) (m (site.reg arg2))
    .done (if arg0 ≠ 0xFF then Function.update m' (site.reg arg0) (m' (site.reg arg2)) else m')
  | .getk arg0 _ keepVal =>
    match ans.get with
    | .slot o => .done (Function.update m (site.reg arg0) o)
    | .missing => if keepVal then .done m else .raised m
    | .raised => .raised m
  | .checkType arg0 mask =>
    if checkTypemask (m (site.reg arg0)) mask then .done m else .raised m

/-- Instructions in order, up to the first error. -/
def execAll (site : Site) (ans : Answers) (m : Memory) : List Instr → Outcome
  | [] => .done m
  | i :: is =>
    match exec vm site ans m i with
    | .done m' => execAll site ans m' is
    | .raised m' => .raised m'

end Quirrel.TypedLocals
