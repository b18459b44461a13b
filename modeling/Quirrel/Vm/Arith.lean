import Quirrel.Vm.Object

/-!
# Arithmetic of the virtual machine

`_ARITH_` and `SQVM::ARITH_OP` with what they call. Integers wrap around. Calling a metamethod
leaves this part of the machine: the result then names the closure, the metamethod and the two
operands.
-/

set_option autoImplicit false

namespace Quirrel.Vm

/-- What arithmetic asks of the rest of the machine: the metamethod of a delegable object (`none`
also when it has no delegate), `ToString` of the types it prints through `sprintf` or `_tostring`,
and `fmod`. -/
structure VmOps where
  getMetaMethod : RefType → Nat → SQMetaMethod → Option SQObject
  toStringObj : SQObject → Except SQObject (List UInt8)
  fmod : SQFloat → SQFloat → SQFloat

/-- A value, an error, or a metamethod to be called. -/
inductive ArithResult where
  | value (o : SQObject)
  | error (e : SQObject)
  | callMetaMethod (closure : SQObject) (mm : SQMetaMethod) (o1 o2 : SQObject)

/-- The operators of `ARITH_OP`. -/
inductive ArithOp where
  | add
  | sub
  | mul
  | div
  | mod
  deriving DecidableEq

/-- The character in the texts of errors. -/
def ArithOp.symbol : ArithOp → String
  | .add => "+"
  | .sub => "-"
  | .mul => "*"
  | .div => "/"
  | .mod => "%"

/-- The metamethod of an operator. -/
def ArithOp.metaMethod : ArithOp → SQMetaMethod
  | .add => .add
  | .sub => .sub
  | .mul => .mul
  | .div => .div
  | .mod => .modulo

/-- `Raise_Error` -/
def raiseError (msg : String) : ArithResult :=
  .error (.string (asciiBytes msg))

variable (vm : VmOps)

/-- The metamethod `mm` of a delegable value with a delegate. -/
def VmOps.metaMethodOf (o : SQObject) (mm : SQMetaMethod) : Option SQObject :=
  match o with
  | .ref t addr => if o.isDelegable then vm.getMetaMethod t addr mm else none
  | _ => none

/-- `SQVM::ArithMetaMethod` -/
def VmOps.arithMetaMethod (op : ArithOp) (o1 o2 : SQObject) : ArithResult :=
  match vm.metaMethodOf o1 op.metaMethod with
  | some closure => .callMetaMethod closure op.metaMethod o1 o2
  | none =>
    raiseError ("arith op " ++ op.symbol ++ " on between '" ++ o1.getTypeName ++ "' and '"
      ++ o2.getTypeName ++ "'")

/-- `SQVM::ToString` -/
def VmOps.toString (o : SQObject) : Except SQObject (List UInt8) :=
  match o with
  | .string s => .ok s
  | .integer i => .ok (printInt i)
  | .bool b => .ok (asciiBytes (if b then "true" else "false"))
  | .null => .ok (asciiBytes "null")
  | o => vm.toStringObj o

/-- `SQVM::StringCat` -/
def VmOps.stringCat (str obj : SQObject) : ArithResult :=
  match vm.toString str with
  | .error e => .error e
  | .ok a =>
    match vm.toString obj with
    | .error e => .error e
    | .ok b => .value (.string (a ++ b))

/-- An operator on two integers, with the two errors of a division. -/
def integerOp (op : ArithOp) (i1 i2 : SQInteger) : ArithResult :=
  match op with
  | .add => .value (.integer (i1 + i2))
  | .sub => .value (.integer (i1 - i2))
  | .mul => .value (.integer (i1 * i2))
  | .div =>
    if i2 = 0 then raiseError "integer division by zero"
    else if i2 = -1 ∧ i1 = BitVec.intMin 64 then raiseError "integer overflow"
    else .value (.integer (i1.sdiv i2))
  | .mod =>
    if i2 = 0 then raiseError "integer modulo by zero"
    else if i2 = -1 then .value (.integer 0)
    else .value (.integer (i1.srem i2))

/-- An operator on two floats; only a division by zero is an error. -/
def VmOps.floatOp (op : ArithOp) (f1 f2 : SQFloat) : ArithResult :=
  match op with
  | .add => .value (.float (f1 + f2))
  | .sub => .value (.float (f1 - f2))
  | .mul => .value (.float (f1 * f2))
  | .div =>
    if (f2 == .ofInt 0) = true then raiseError "float division by zero"
    else .value (.float (f1 / f2))
  | .mod =>
    if (f2 == .ofInt 0) = true then raiseError "float modulo by zero"
    else .value (.float (vm.fmod f1 f2))

/-- `SQVM::ARITH_OP`; for `+` and `-` the macro `_ARITH_` computes the same. -/
def VmOps.arithOp (op : ArithOp) (o1 o2 : SQObject) : ArithResult :=
  let tmask := o1.sqType ||| o2.sqType
  if tmask = otInteger then integerOp op o1.toSQInteger o2.toSQInteger
  else if tmask = otFloat ||| otInteger ∨ tmask = otFloat then
    vm.floatOp op o1.toSQFloat o2.toSQFloat
  else if op = .add ∧ tmask &&& rtString ≠ 0#32 then vm.stringCat o1 o2
  else vm.arithMetaMethod op o1 o2

/-! ## One rule for each kind of type mask -/

section Mask

variable (op : ArithOp) {o1 o2 : SQObject}

theorem arithOp_of_integers (h : o1.sqType ||| o2.sqType = otInteger) :
    vm.arithOp op o1 o2 = integerOp op o1.toSQInteger o2.toSQInteger :=
  if_pos h

theorem arithOp_of_floats (h : o1.sqType ||| o2.sqType = otFloat ||| otInteger) :
    vm.arithOp op o1 o2 = vm.floatOp op o1.toSQFloat o2.toSQFloat := by
  have hint : o1.sqType ||| o2.sqType ≠ otInteger := by
    rw [h]
    decide
  exact (if_neg hint).trans (if_pos (Or.inl h))

theorem arithOp_of_string {w : BitVec 32} (h : o1.sqType ||| o2.sqType = w)
    (hw : w ≠ otInteger ∧ w ≠ otFloat ||| otInteger ∧ w ≠ otFloat ∧ w &&& rtString ≠ 0#32) :
    vm.arithOp op o1 o2 =
      if op = .add then vm.stringCat o1 o2 else vm.arithMetaMethod op o1 o2 := by
  obtain ⟨hint, hfi, hf, hstr⟩ := hw
  simp only [VmOps.arithOp, h, hint, hfi, hf, hstr, or_self, if_false, ne_eq, not_false_iff,
    and_true]

theorem arithOp_of_other {w : BitVec 32} (h : o1.sqType ||| o2.sqType = w)
    (hw : w ≠ otInteger ∧ w ≠ otFloat ||| otInteger ∧ w ≠ otFloat ∧ w &&& rtString = 0#32) :
    vm.arithOp op o1 o2 = vm.arithMetaMethod op o1 o2 := by
  obtain ⟨hint, hfi, hf, hstr⟩ := hw
  simp only [VmOps.arithOp, h, hint, hfi, hf, hstr, or_self, if_false, ne_eq, not_true,
    and_false]

end Mask

/-! ## An integer on the right -/

section IntegerRight

variable (op : ArithOp) (i : SQInteger)

theorem arithOp_integer (j : SQInteger) :
    vm.arithOp op (.integer j) (.integer i) = integerOp op j i :=
  arithOp_of_integers vm op (by show otInteger ||| otInteger = otInteger; decide)

theorem arithOp_null : vm.arithOp op .null (.integer i) = integerOp op 0 i :=
  arithOp_of_integers vm op (by show otNull ||| otInteger = otInteger; decide)

theorem arithOp_float (f : SQFloat) :
    vm.arithOp op (.float f) (.integer i) = vm.floatOp op f (.ofInt i.toInt) :=
  arithOp_of_floats vm op rfl

theorem arithOp_bool (b : Bool) :
    vm.arithOp op (.bool b) (.integer i) = vm.arithMetaMethod op (.bool b) (.integer i) :=
  arithOp_of_other vm op (show _ = otBool ||| otInteger from rfl) (by decide)

theorem arithOp_string (s : List UInt8) :
    vm.arithOp op (.string s) (.integer i) =
      if op = .add then .value (.string (s ++ printInt i))
      else vm.arithMetaMethod op (.string s) (.integer i) :=
  arithOp_of_string vm op (show _ = otString ||| otInteger from rfl) (by decide)

theorem arithOp_ref (t : RefType) (addr : Nat) :
    vm.arithOp op (.ref t addr) (.integer i) = vm.arithMetaMethod op (.ref t addr) (.integer i) :=
  arithOp_of_other vm op (show _ = t.typeWord ||| otInteger from rfl) t.typeWord_or_otInteger

end IntegerRight

/-! ## An integer on the left -/

section IntegerLeft

variable (op : ArithOp) (i : SQInteger)

theorem integer_arithOp_null : vm.arithOp op (.integer i) .null = integerOp op i 0 :=
  arithOp_of_integers vm op (by show otInteger ||| otNull = otInteger; decide)

theorem integer_arithOp_float (f : SQFloat) :
    vm.arithOp op (.integer i) (.float f) = vm.floatOp op (.ofInt i.toInt) f :=
  arithOp_of_floats vm op (BitVec.or_comm otInteger otFloat)

theorem integer_arithOp_bool (b : Bool) :
    vm.arithOp op (.integer i) (.bool b) = vm.arithMetaMethod op (.integer i) (.bool b) :=
  arithOp_of_other vm op (show _ = otInteger ||| otBool from rfl) (by decide)

theorem integer_arithOp_string (s : List UInt8) :
    vm.arithOp op (.integer i) (.string s) =
      if op = .add then .value (.string (printInt i ++ s))
      else vm.arithMetaMethod op (.integer i) (.string s) :=
  arithOp_of_string vm op (show _ = otInteger ||| otString from rfl) (by decide)

theorem integer_arithOp_ref (t : RefType) (addr : Nat) :
    vm.arithOp op (.integer i) (.ref t addr) = vm.arithMetaMethod op (.integer i) (.ref t addr) :=
  arithOp_of_other vm op (BitVec.or_comm otInteger t.typeWord) t.typeWord_or_otInteger

end IntegerLeft

end Quirrel.Vm
