import Quirrel.Compiler.AddImmediate

set_option autoImplicit false

/-!
# Constant folding

`ConstGenVisitor` evaluates a const-evaluable expression when it is compiled (`fold`); without folding
the machine evaluates its code later (`run`). Both call the same functions of the machine, as it is
at their time. The folder evaluates both operands of `&&`, `||` and `??`, asks for a slot with
`sq_get` whatever the expression says about type methods, and looks at `_lasterror` where a slot is
missing: an error that is still pending there, also an old one, ends the compilation.
-/

namespace Quirrel.ConstFold

open Vm Compiler

/-! ## Values -/

/-- An `SQObjectPtr`. The immutable flag says something about references only, and is not set on
other values here. -/
structure Value where
  obj : SQObject
  immutable : Bool

/-- A value without the flag. -/
def ofObj (o : SQObject) : Value := ⟨o, false⟩

/-- `_flags = SQOBJ_FLAG_IMMUTABLE` -/
def Value.freeze (v : Value) : Value :=
  match v.obj with
  | .ref _ _ => ⟨v.obj, true⟩
  | _ => v

/-- `propagate_immutable` -/
def propagateImmutable (self v : Value) : Value :=
  if self.immutable then v.freeze else v

/-- `SQVM::IsFalse` -/
def isFalse : SQObject → Bool
  | .null => true
  | .integer i => i = 0
  | .float f => f == .ofInt 0
  | .bool b => !b
  | .string _ => false
  | .ref _ addr => addr = 0

/-! ## Expressions -/

/-- The operators of `UnExpr` that can be folded. -/
inductive UnOp where
  | neg
  | not
  | bnot
  | typeof

/-- `BW_AND`, `BW_OR`, `BW_XOR`, `BW_SHIFTL`, `BW_SHIFTR`, `BW_USHIFTR` -/
inductive BwOp where
  | and
  | or
  | xor
  | shiftL
  | shiftR
  | uShiftR

/-- `CMP_G`, `CMP_GE`, `CMP_L`, `CMP_LE`, `CMP_3W` -/
inductive CmpOp where
  | g
  | ge
  | l
  | le
  | threeWay

/-- The operators of `BinExpr` that evaluate both operands. -/
inductive BinOp where
  | arith (op : ArithOp)
  | bw (op : BwOp)
  | eq
  | ne
  | cmp (op : CmpOp)
  | isIn
  | instanceOf

/-- `??`, `||` and `&&` -/
inductive LogicOp where
  | nullCoalesce
  | or
  | and

/-- An expression; `other` is one of a kind that is never const-evaluable. -/
inductive Expr where
  | literal (o : SQObject)
  | id (name : String)
  | paren (e : Expr)
  | inlineConst (e : Expr)
  | un (op : UnOp) (e : Expr)
  | bin (op : BinOp) (l r : Expr)
  | logic (op : LogicOp) (l r : Expr)
  | ter (a b c : Expr)
  | getField (receiver : Expr) (field : String) (isNullable isTypeMethod : Bool)
  | getSlot (receiver key : Expr) (isNullable : Bool)
  | other

/-- What the code generator knows where it compiles the expression: the local and outer variables,
`IsConstant`, the name of the function and the closure that it becomes, and whether a key is a
method of some type, or of tables. -/
structure Context where
  isVariable : String → Bool
  constant : String → Option Value
  functionName : Option String
  callee : Value
  canBeTypeMethod : String → Bool
  canBeTableTypeMethod : String → Bool

/-- `CodeGenVisitor::isConstEvaluable` -/
def isConstEvaluable (ctx : Context) : Expr → Bool
  | .literal _ => true
  | .id name => !ctx.isVariable name && (ctx.constant name).isSome
  | .paren e | .inlineConst e => isConstEvaluable ctx e
  | .un _ e => isConstEvaluable ctx e
  | .bin _ l r | .logic _ l r => isConstEvaluable ctx l && isConstEvaluable ctx r
  | .ter a b c => isConstEvaluable ctx a && isConstEvaluable ctx b && isConstEvaluable ctx c
  | .getField receiver _ _ _ => isConstEvaluable ctx receiver
  | .getSlot receiver key _ => isConstEvaluable ctx receiver && isConstEvaluable ctx key
  | .other => false

/-! ## The machine -/

/-- `SLOT_STATUS_*` -/
inductive SlotStatus where
  | ok (v : Value)
  | noMatch
  | error

/-- What an evaluator asks of the machine. -/
inductive Call where
  | un (op : UnOp) (v : Value)
  | bin (op : BinOp) (a b : Value)
  | get (self : Value) (key : SQObject)

/-- The machine at one time: arithmetic, what a metamethod returns, the operators that both evaluators
call in the same way, and `Get` of a container, of a fallback and of a type's methods. `errorAfter` says
whether `_lasterror` is set after a call, from whether it was set before: a delegate that has no such slot
leaves an error, and so does a metamethod that catches one. -/
structure Machine where
  ops : VmOps
  callMetaMethod : SQObject → SQMetaMethod → SQObject → SQObject → Option Value
  negOp : Value → Option Value
  typeOf : Value → Option Value
  bwOp : BwOp → Value → Value → Option Value
  isEqual : Value → Value → Bool
  cmpOp : CmpOp → Value → Value → Option Value
  isInstanceOf : Value → Value → Bool
  slot : SQObject → SQObject → Option Value
  fallBackGet : Value → SQObject → SlotStatus
  typeMethod : SQObject → SQObject → Option Value
  errorAfter : Call → Bool → Bool

/-- The containers that `GetImpl` reads itself, and those where it then stops. -/
inductive OwnSlots where
  | fallThrough
  | final
  | none

/-- The `switch` of `GetImpl`. -/
def ownSlots (self key : SQObject) : OwnSlots :=
  match self with
  | .ref .table _ | .ref .sqinstance _ | .ref .sqclass _ => .fallThrough
  | .ref .array _ | .string _ => if key.isNumeric then .final else .none
  | _ => .none

variable (vm : Machine)

/-- What `GetImpl` does where the container has no such slot. -/
def Machine.getFallBack (self : Value) (key : SQObject) (noTypeMethods : Bool) : SlotStatus :=
  match vm.fallBackGet self key with
  | .ok v => .ok (propagateImmutable self v)
  | .error => .error
  | .noMatch =>
    if noTypeMethods then .noMatch
    else
      match vm.typeMethod self.obj key with
      | some v => .ok (propagateImmutable self v)
      | none => .noMatch

/-- `SQVM::GetImpl` without `GET_FLAG_RAW`. -/
def Machine.getImpl (self : Value) (key : SQObject) (noTypeMethods typeMethodsOnly : Bool) :
    SlotStatus :=
  if typeMethodsOnly then
    match vm.typeMethod self.obj key with
    | some v => .ok (propagateImmutable self v)
    | none => .noMatch
  else
    match ownSlots self.obj key with
    | .none => vm.getFallBack self key noTypeMethods
    | .final =>
      match vm.slot self.obj key with
      | some v => .ok (propagateImmutable self v)
      | none => .noMatch
    | .fallThrough =>
      match vm.slot self.obj key with
      | some v => .ok (propagateImmutable self v)
      | none => vm.getFallBack self key noTypeMethods

/-- The value of an arithmetic operation, with its metamethod called. -/
def Machine.answer : ArithResult → Option Value
  | .value o => some (ofObj o)
  | .error _ => none
  | .callMetaMethod closure mm o1 o2 => vm.callMetaMethod closure mm o1 o2

/-- `NEG_OP`, `IsFalse`, `~` and `TypeOf` -/
def Machine.unOp : UnOp → Value → Option Value
  | .neg, v => vm.negOp v
  | .not, v => some (ofObj (.bool (isFalse v.obj)))
  | .bnot, v =>
    match v.obj with
    | .integer i => some (ofObj (.integer (~~~i)))
    | _ => none
  | .typeof, v => vm.typeOf v

/-- `instanceof`, which asks for a class on the right. -/
def Machine.instanceOf (a b : Value) : Option Value :=
  match b.obj with
  | .ref .sqclass _ => some (ofObj (.bool (vm.isInstanceOf a b)))
  | _ => none

/-- Whether `&&`, `||` or `??` has its value from the left operand. -/
def LogicOp.isDecided : LogicOp → Value → Bool
  | .nullCoalesce, v => v.obj ≠ .null
  | .or, v => !isFalse v.obj
  | .and, v => isFalse v.obj

/-- `Get` has found something. -/
def SlotStatus.isOk : SlotStatus → Bool
  | .ok _ => true
  | .noMatch | .error => false

/-- The operators, as the instructions compute them from their two operands. -/
def Machine.binOp : BinOp → Value → Value → Option Value
  | .arith op, a, b => vm.answer (vm.ops.arithOp op a.obj b.obj)
  | .bw op, a, b => vm.bwOp op a b
  | .eq, a, b => some (ofObj (.bool (vm.isEqual a b)))
  | .ne, a, b => some (ofObj (.bool (!vm.isEqual a b)))
  | .cmp op, a, b => vm.cmpOp op a b
  | .isIn, a, b => some (ofObj (.bool (vm.getImpl b a.obj true false).isOk))
  | .instanceOf, a, b => vm.instanceOf a b

/-! ## The folder -/

/-- `ConstGenVisitor::visitBinExpr` on its operands, where `err` says whether `_lasterror` is set. -/
def Machine.foldBin (op : BinOp) (a b : Value) (err : Bool) : Option Value :=
  match op with
  | .isIn =>
    match vm.getImpl b a.obj true false with
    | .error => none
    | .ok _ | .noMatch => if vm.errorAfter (.get b a.obj) err then none else vm.binOp .isIn a b
  | op => vm.binOp op a b

/-- `_lasterror` after `visitBinExpr`. -/
def Machine.errorAfterBin (op : BinOp) (a b : Value) (err : Bool) : Bool :=
  match op with
  | .isIn => vm.errorAfter (.get b a.obj) err
  | op => vm.errorAfter (.bin op a b) err

/-- `visitGetFieldExpr` and `visitGetSlotExpr` after their operands: `sq_get`. A slot that is missing is null
only while no error is set; `SLOT_STATUS_ERROR` has set one. -/
def Machine.foldGet (self : Value) (key : SQObject) (isNullable err : Bool) : Option Value :=
  match vm.getImpl self key false false with
  | .ok v => some v.freeze
  | .noMatch =>
    if isNullable && !vm.errorAfter (.get self key) err then some (ofObj .null) else none
  | .error => none

/-- `ConstGenVisitor::process`: the value, and whether `_lasterror` is set then, from whether it is set
before; `none` is a diagnostic. -/
def fold (ctx : Context) : Expr → Bool → Option (Value × Bool)
  | .literal o, err => some (ofObj o, err)
  | .id name, err => (ctx.constant name).map fun v => (v, err)
  -- `sq_reseterror` is called for every unary and binary expression
  | .paren e, _ | .inlineConst e, _ => fold ctx e false
  | .un op e, _ => do
    let (v, err) ← fold ctx e false
    let res ← vm.unOp op v
    return (res, vm.errorAfter (.un op v) err)
  | .bin op l r, _ => do
    let (a, err) ← fold ctx l false
    let (b, err) ← fold ctx r err
    let res ← vm.foldBin op a b err
    return (res, vm.errorAfterBin op a b err)
  | .logic op l r, _ => do
    let (a, err) ← fold ctx l false
    let (b, err) ← fold ctx r err
    return (if op.isDecided a then a else b, err)
  | .ter a b c, err => do
    let (v, err) ← fold ctx a err
    if isFalse v.obj then fold ctx c err else fold ctx b err
  | .getField receiver field isNullable _, err => do
    let (self, err) ← fold ctx receiver err
    let key := SQObject.string (asciiBytes field)
    let res ← vm.foldGet self key isNullable err
    return (res, vm.errorAfter (.get self key) err)
  | .getSlot receiver key isNullable, err => do
    let (self, err) ← fold ctx receiver err
    let (k, err) ← fold ctx key err
    let res ← vm.foldGet self k.obj isNullable err
    return (res, vm.errorAfter (.get self k.obj) err)
  | .other, _ => none

/-! ## Evaluation -/

/-- What the code generator sees of an operand. -/
def operandOf : Expr → Value → Operand
  | .literal (.integer i), _ => .literal i
  | _, v => .expr v.obj

/-- The instruction for a binary operator, with `_OP_ADDI` where an operand is a literal. -/
def Machine.runBin (op : BinOp) (l r : Expr) (a b : Value) : Option Value :=
  match op with
  | .arith .add => vm.answer (execArith vm.ops (visitAdd (operandOf l a) (operandOf r b)))
  | .arith .sub => vm.answer (execArith vm.ops (visitSub (operandOf l a) (operandOf r b)))
  | op => vm.binOp op a b

/-- `_OP_GETK` and `_OP_GET` -/
def Machine.runGet (self : Value) (key : SQObject) (noTypeMethods typeMethodsOnly isNullable : Bool) :
    Option Value :=
  match vm.getImpl self key noTypeMethods typeMethodsOnly with
  | .ok v => some v
  | .noMatch => if isNullable then some (ofObj .null) else none
  | .error => none

/-- The types of values that `visitGetFieldExpr` does not take out of an enum. -/
def needsCallContext : SQObject → Bool
  | .ref .closure _ | .ref .nativeclosure _ | .ref .generator _ | .ref .sqclass _
  | .ref .sqinstance _ => true
  | _ => false

/-- The enums of `visitGetFieldExpr`: a field of an immutable constant table is looked up when the
expression is compiled. `none`: the expression is compiled to a read; `some none`: a diagnostic. -/
def enumField (ctx : Context) (receiver : Expr) (field : String) (isNullable : Bool) :
    Option (Option Value) :=
  match receiver with
  | .id name =>
    match ctx.constant name with
    | some ⟨.ref .table addr, true⟩ =>
      if isNullable then none
      else
        match vm.slot (.ref .table addr) (.string (asciiBytes field)) with
        | some next => if needsCallContext next.obj then none else some (some next)
        | none => if ctx.canBeTableTypeMethod field then none else some none
    | _ => none
  | _ => none

/-- The value of the expression's own code, compiled at the time of `vm` and run at the time of `vm'`;
`none` is an error. A `const` expression in it is a constant of the code. -/
def run (ctx : Context) (vm' : Machine) : Expr → Option Value
  | .literal o => some (ofObj o)
  | .id name => if ctx.functionName = some name then some ctx.callee else ctx.constant name
  | .paren e => run ctx vm' e
  | .inlineConst e => (fold vm ctx e false).map Prod.fst
  | .un op e => do
    let v ← run ctx vm' e
    vm'.unOp op v
  | .bin op l r => do
    let a ← run ctx vm' l
    let b ← run ctx vm' r
    vm'.runBin op l r a b
  | .logic op l r => do
    let a ← run ctx vm' l
    if op.isDecided a then return a
    run ctx vm' r
  | .ter a b c => do
    let v ← run ctx vm' a
    if isFalse v.obj then run ctx vm' c else run ctx vm' b
  | .getField receiver field isNullable isTypeMethod =>
    match enumField vm ctx receiver field isNullable with
    | some v => v
    | none => do
      let self ← run ctx vm' receiver
      vm'.runGet self (.string (asciiBytes field)) (!ctx.canBeTypeMethod field) isTypeMethod
        isNullable
  | .getSlot receiver key isNullable => do
    let self ← run ctx vm' receiver
    let k ← run ctx vm' key
    vm'.runGet self k.obj true false isNullable
  | .other => none

end Quirrel.ConstFold
