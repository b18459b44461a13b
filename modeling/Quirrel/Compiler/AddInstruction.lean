import Quirrel.Vm.Exec

/-!
# `SQFuncState::AddInstruction`

The code generator hands its instructions to `AddInstruction` one by one. Where optimization is on,
an instruction may be merged into the one before it; `SnoozeOpt` turns optimization off at the
start of a basic block, and the first instruction of the block turns it on again.
-/

set_option autoImplicit false

namespace Quirrel.Compiler

open Quirrel.Vm

/-! ## State -/

/-- The part of a function under compilation that `AddInstruction` reads or changes. The latest
instruction comes first. -/
structure FuncState where
  instructions : List Emitted
  optimization : Bool
  /-- `LF_DISABLE_OPTIMIZER` -/
  disableOptimizer : Bool
  literals : List SQObject
  isLocal : Nat → Bool
  hasParent : Bool
  returnexp : Int

/-- `GetConstant`: the index of a literal, which is added to the table if it is new. -/
def getConstant (literals : List SQObject) (v : SQObject) : List SQObject × Int :=
  if v ∈ literals then (literals, literals.idxOf v) else (literals ++ [v], literals.length)

/-- `(unsigned char)` -/
def uchar (a : Int) : Nat := (a % 256).toNat

/-! ## Merges -/

section Merge

variable (fs : FuncState) (pi i : SQInstruction)

/-- A store whose result is the stored register itself has no target. -/
def dropSelfTarget : SQInstruction :=
  match i.op with
  | .set | .newslot | .seti | .setk | .newslotk =>
    if i.arg0 = i.arg3 then { i with arg0 := maxFuncStacksize } else i
  | .setouter => if i.arg0 = i.arg2 then { i with arg0 := maxFuncStacksize } else i
  | _ => i

/-- `pi._arg0 == i._arg1 && !IsLocal(pi._arg0)` -/
def FuncState.consumes : Bool :=
  decide ((pi.arg0 : Int) = i.arg1) && !fs.isLocal pi.arg0

/-- The key of `i` is the literal of `pi`, which is in the table already. -/
def FuncState.literalKey (op : Opcode) : List SQObject × SQInstruction :=
  (fs.literals, { i with op := op, arg1 := pi.arg1 })

/-- The key of `i` is made a literal. -/
def FuncState.constantKey (op : Opcode) (v : SQObject) : List SQObject × SQInstruction :=
  ((getConstant fs.literals v).1, { i with op := op, arg1 := (getConstant fs.literals v).2 })

/-- The merge of a load with the append behind it. -/
def FuncState.appendKey (aat : AppendArrayType) : List SQObject × SQInstruction :=
  (fs.literals, { i with arg1 := pi.arg1, arg2 := aat.code, arg3 := maxFuncStacksize })

/-- What becomes of `pi` and `i` when `pi` loads the key of `i` or what `i` appends or compares with:
the literals and the merged instruction. -/
def FuncState.mergeKey : Option (List SQObject × SQInstruction) :=
  match i.op, pi.op with
  | .set, .load => some (fs.literalKey pi i .setk)
  | .set, .loadint => some (fs.literalKey pi i .seti)
  | .newslot, .load => some (fs.literalKey pi i .newslotk)
  | .newslot, .loadint => some (fs.constantKey i .newslotk (.integer (BitVec.ofInt 64 pi.arg1)))
  | .get, .load => some (fs.literalKey pi i .getk)
  | .get, .loadint => some (fs.constantKey i .getk (.integer (BitVec.ofInt 64 pi.arg1)))
  | .prepcall, .load => some (fs.literalKey pi i .prepcallk)
  | .appendarray, .load => some (fs.appendKey pi i .literal)
  | .appendarray, .loadint => some (fs.appendKey pi i .int)
  | .appendarray, .loadbool => some (fs.appendKey pi i .bool)
  | .appendarray, .loadfloat => some (fs.appendKey pi i .float)
  | .eq, .load | .ne, .load => some (fs.literalKey pi { i with arg3 := 1 } i.op)
  | .eq, .loadint | .ne, .loadint =>
    some (fs.constantKey { i with arg3 := 1 } i.op (.integer (BitVec.ofInt 64 pi.arg1)))
  | .eq, .loadfloat | .ne, .loadfloat =>
    some (fs.constantKey { i with arg3 := 1 } i.op (farg pi.arg1))
  | .eq, .loadbool | .ne, .loadbool =>
    some (fs.constantKey { i with arg3 := 1 } i.op (.bool (pi.arg1 != 0)))
  | _, _ => none

/-- The instructions whose target `_OP_MOVE` may replace. -/
def isRetargetable : Opcode → Bool
  | .get | .getk | .value _ | .load | .loadint | .loadfloat | .loadbool | .cmp => true
  | _ => false

/-- The instructions that may take `_OP_MOVE` as a second move. -/
def takesSecondMove : Opcode → Bool
  | .getouter | .loadcallee => true
  | _ => false

/-- `_OP_TAILCALL` replaces `_OP_CALL` in front of `_OP_RETURN`. -/
def FuncState.makesTailcall : Bool :=
  fs.hasParent && decide (i.arg0 ≠ maxFuncStacksize) && decide (pi.op = .call) &&
    decide (fs.returnexp < (fs.instructions.length : Int) - 1)

/-- A comparison and the jump that tests it, as one instruction. -/
def fuseJump : SQInstruction where
  op := .jcmp
  arg0 := uchar pi.arg1
  arg1 := i.arg1
  arg2 := pi.arg2
  arg3 := pi.arg3 ||| ((if i.arg2 ≠ 0 then 1 else 0) <<< 3)

end Merge

/-- What becomes of an instruction and the one before it. -/
inductive Merge where
  | into (literals : List SQObject) (optimization : Bool) (pi : Emitted)
  | push (pi i : Emitted)

/-- The peephole optimizer, where `pi` is the last instruction. -/
def FuncState.peephole (fs : FuncState) (pi i : Emitted) : Merge :=
  let i := { i with instr := dropSelfTarget i.instr }
  match i.instr.op with
  | .jz =>
    if pi.instr.op = .cmp ∧ pi.instr.arg1 < 0xFF then
      .into fs.literals true { i with instr := fuseJump pi.instr i.instr, onError := pi.onError }
    else .push pi i
  | .return =>
    if fs.makesTailcall pi.instr i.instr then
      .push { pi with instr := { pi.instr with op := .tailcall } } i
    else if pi.instr.op = .close then .into fs.literals true i
    else .push pi i
  | .move =>
    if isRetargetable pi.instr.op ∧ fs.consumes pi.instr i.instr then
      .into fs.literals false
        { i with instr := { pi.instr with arg0 := i.instr.arg0 }, onError := pi.onError }
    else if takesSecondMove pi.instr.op ∧ i.instr.arg1 < 256 ∧ i.instr.arg0 ≠ 0 ∧
        pi.instr.arg2 = 0 then
      .into fs.literals true
        { i with instr := { pi.instr with arg2 := i.instr.arg0, arg3 := uchar i.instr.arg1 } }
    else if pi.instr.op = .move ∧ i.instr.arg1 < 256 then
      .into fs.literals true
        { i with instr :=
            { pi.instr with op := .dmove, arg2 := i.instr.arg0, arg3 := uchar i.instr.arg1 } }
    else .push pi i
  | .load =>
    if pi.instr.op = .load ∧ i.instr.arg1 < 256 then
      .into fs.literals true
        { i with instr :=
            { pi.instr with op := .dload, arg2 := i.instr.arg0, arg3 := uchar i.instr.arg1 } }
    else .push pi i
  | .loadnulls =>
    if pi.instr.op = .loadnulls ∧ pi.instr.arg0 + pi.instr.arg1 = i.instr.arg0 then
      .into fs.literals true { i with instr := { pi.instr with arg1 := pi.instr.arg1 + 1 } }
    else .push pi i
  | _ =>
    if fs.consumes pi.instr i.instr then
      match fs.mergeKey pi.instr i.instr with
      | some (literals, instr) => .into literals true { i with instr := instr }
      | none => .push pi i
    else .push pi i

/-! ## Emission -/

/-- The instruction is appended. -/
def FuncState.push (fs : FuncState) (i : Emitted) : FuncState :=
  { fs with optimization := true, instructions := i :: fs.instructions }

/-- The previous instruction, if merging with it is allowed. -/
def FuncState.previous (fs : FuncState) : Option (Emitted × List Emitted) :=
  match fs.instructions with
  | pi :: rest => if fs.optimization && !fs.disableOptimizer then some (pi, rest) else none
  | [] => none

/-- `SQFuncState::AddInstruction` -/
def FuncState.addInstruction (fs : FuncState) (i : Emitted) : FuncState :=
  match fs.previous with
  | some (pi, rest) =>
    match fs.peephole pi i with
    | .into literals optimization pi' =>
      { fs with literals := literals, optimization := optimization, instructions := pi' :: rest }
    | .push pi' i' => { fs with optimization := true, instructions := i' :: pi' :: rest }
  | none => fs.push i

/-- What the code generator does between two calls of `SnoozeOpt`. -/
inductive CodegenStep where
  | addInstruction (i : Emitted)
  | getConstant (v : SQObject)
  | setLocals (isLocal : Nat → Bool)
  | setReturnexp (pos : Int)

/-- One call of the code generator. -/
def FuncState.step (fs : FuncState) : CodegenStep → FuncState
  | .addInstruction i => fs.addInstruction i
  | .getConstant v => { fs with literals := (Compiler.getConstant fs.literals v).1 }
  | .setLocals isLocal => { fs with isLocal := isLocal }
  | .setReturnexp pos => { fs with returnexp := pos }

/-- A basic block. -/
def FuncState.emit (fs : FuncState) (block : List CodegenStep) : FuncState :=
  block.foldl FuncState.step fs

/-- The instructions that are handed over. -/
def addedInstructions (block : List CodegenStep) : List Emitted :=
  block.filterMap fun
    | .addInstruction i => some i
    | _ => none

/-- Without the optimizer the instructions stay as they are. -/
theorem emit_disabled (fs : FuncState) (hd : fs.disableOptimizer = true)
    (block : List CodegenStep) :
    (fs.emit block).instructions = (addedInstructions block).reverse ++ fs.instructions := by
  induction block generalizing fs with
  | nil => rfl
  | cons s block ih =>
    cases s with
    | addInstruction i =>
      have hprev : fs.previous = none := by
        unfold FuncState.previous
        split <;> simp [hd]
      have hstep : fs.step (.addInstruction i) = fs.push i := by
        simp [FuncState.step, FuncState.addInstruction, hprev]
      have hrec := ih (fs.push i) hd
      simp only [FuncState.emit, List.foldl_cons, hstep, addedInstructions, List.filterMap_cons,
        List.reverse_cons, List.append_assoc, List.singleton_append] at hrec ⊢
      exact hrec
    | getConstant v => exact ih _ hd
    | setLocals isLocal => exact ih _ hd
    | setReturnexp pos => exact ih _ hd

end Quirrel.Compiler
