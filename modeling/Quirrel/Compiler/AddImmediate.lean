import Quirrel.Lib.Float32
import Quirrel.Vm.Arith

/-!
# `+` and `-` with an integer literal

`CodeGenVisitor::visitBinExpr` compiles `v + k`, `k + v` and `v - k` to `_OP_ADDI` when the literal
fits 32 bits. `Specialised` is what that code computes and `Generic` what `_OP_ADD` and `_OP_SUB`
compute. The instruction always has the value on the left and always adds, so the two agree exactly
when `AddImmediateSound` holds (`specialised_agrees_iff`): a left literal has moved to the right,
and a subtraction has become an addition.
-/

set_option autoImplicit false

namespace Quirrel.Compiler

open Quirrel.Vm Quirrel.Lib

/-! ## Code generation -/

/-- An operand of a binary expression: an integer literal, or an expression with the value it
evaluates to. -/
inductive Operand where
  | literal (i : SQInteger)
  | expr (v : SQObject)

/-- The value of an operand. -/
def Operand.value : Operand → SQObject
  | .literal i => .integer i
  | .expr v => v

/-- `is_literal_in_int_range` -/
def isLiteralInIntRange : Operand → Option SQInteger
  | .literal i => if -2 ^ 31 ≤ i.toInt ∧ i.toInt ≤ 2 ^ 31 - 1 then some i else none
  | .expr _ => none

/-- The instruction emitted after the operands have been evaluated. `arg1` of `_OP_ADDI` is a
32-bit field; the other registers are named by the operand they hold. -/
inductive ArithCode where
  | addi (arg1 : BitVec 32) (arg2 : Operand)
  | add (arg2 arg1 : Operand)
  | sub (arg2 arg1 : Operand)

/-- The case `TO_ADD` of `visitBinExpr`. -/
def visitAdd (lhs rhs : Operand) : ArithCode :=
  match isLiteralInIntRange lhs with
  | some i => .addi (i.setWidth 32) rhs
  | none =>
    match isLiteralInIntRange rhs with
    | some i => .addi (i.setWidth 32) lhs
    | none => .add lhs rhs

/-- The case `TO_SUB` of `visitBinExpr`. -/
def visitSub (lhs rhs : Operand) : ArithCode :=
  match isLiteralInIntRange rhs with
  | some i => if i.toInt ≠ -2 ^ 31 then .addi ((-i).setWidth 32) lhs else .sub lhs rhs
  | none => .sub lhs rhs

/-- `_OP_ADDI`, `_OP_ADD` and `_OP_SUB` -/
def execArith (vm : VmOps) : ArithCode → ArithResult
  | .addi arg1 arg2 => vm.arithOp .add arg2.value (.integer (arg1.signExtend 64))
  | .add arg2 arg1 => vm.arithOp .add arg2.value arg1.value
  | .sub arg2 arg1 => vm.arithOp .sub arg2.value arg1.value

/-! ## The two evaluations -/

/-- The three expressions that the code generator specializes. -/
inductive LiteralForm where
  | valuePlusLiteral
  | literalPlusValue
  | valueMinusLiteral

/-- The generated code on the operand `e` and the literal `k`. -/
def Specialised (vm : VmOps) (form : LiteralForm) (e : Operand) (k : BitVec 32) : ArithResult :=
  let literal := Operand.literal (k.signExtend 64)
  match form with
  | .valuePlusLiteral => execArith vm (visitAdd e literal)
  | .literalPlusValue => execArith vm (visitAdd literal e)
  | .valueMinusLiteral => execArith vm (visitSub e literal)

/-- The generic instruction on the same operands. -/
def Generic (vm : VmOps) (form : LiteralForm) (e : Operand) (k : BitVec 32) : ArithResult :=
  let literal := Operand.literal (k.signExtend 64)
  match form with
  | .valuePlusLiteral => execArith vm (.add e literal)
  | .literalPlusValue => execArith vm (.add literal e)
  | .valueMinusLiteral => execArith vm (.sub e literal)

/-- The same value, the same metamethod on the same operands, or an error on both sides. -/
def Agrees : ArithResult → ArithResult → Prop
  | .error _, .error _ => True
  | r, r' => r = r'

/-- When the specialised code may stand for the generic instruction. -/
def AddImmediateSound (vm : VmOps) (v : SQObject) (k : BitVec 32) : LiteralForm → Prop
  | .valuePlusLiteral => True
  | .literalPlusValue =>
    (∀ s, v = .string s → printInt (k.signExtend 64) ++ s = s ++ printInt (k.signExtend 64)) ∧
      vm.metaMethodOf v .add = none
  | .valueMinusLiteral =>
    k = BitVec.intMin 32 ∨
      (∀ s, v ≠ .string s) ∧ vm.metaMethodOf v .add = none ∧ vm.metaMethodOf v .sub = none ∧
        ¬ (k = 0 ∧ ∃ f, v = .float f ∧ f.unpack = .zero .negative)

/-! ## The literal in the instruction -/

theorem toInt_setWidth_of_range {i : SQInteger} (hlo : -2 ^ 31 ≤ i.toInt)
    (hhi : i.toInt ≤ 2 ^ 31 - 1) : (i.setWidth 32).toInt = i.toInt := by
  have hcond := BitVec.toInt_eq_toNat_cond i
  have hlt := i.isLt
  rw [BitVec.toInt_setWidth, Int.bmod_def]
  split at hcond <;> split <;> omega

/-- A literal that passes the test is what the 32-bit field extends to. -/
theorem isLiteralInIntRange_eq_some {e : Operand} {i : SQInteger}
    (h : isLiteralInIntRange e = some i) :
    e.value = .integer i ∧ (i.setWidth 32).signExtend 64 = i := by
  cases e with
  | expr v => cases h
  | literal j =>
    simp only [isLiteralInIntRange] at h
    split at h
    · rename_i hrange
      cases h
      refine ⟨rfl, BitVec.eq_of_toInt_eq ?_⟩
      rw [BitVec.toInt_signExtend_of_le (by decide)]
      exact toInt_setWidth_of_range hrange.1 hrange.2
    · cases h

theorem toInt_signExtend (k : BitVec 32) : (k.signExtend 64).toInt = k.toInt :=
  BitVec.toInt_signExtend_of_le (by decide)

theorem isLiteralInIntRange_signExtend (k : BitVec 32) :
    isLiteralInIntRange (.literal (k.signExtend 64)) = some (k.signExtend 64) := by
  have hlo := BitVec.le_toInt k
  have hhi := BitVec.toInt_lt (x := k)
  simp only [isLiteralInIntRange, toInt_signExtend]
  exact if_pos ⟨hlo, by omega⟩

theorem signExtend_setWidth (k : BitVec 32) :
    ((k.signExtend 64).setWidth 32).signExtend 64 = k.signExtend 64 :=
  (isLiteralInIntRange_eq_some (isLiteralInIntRange_signExtend k)).2

/-- The negated literal fits the field unless it is the least integer. -/
theorem neg_signExtend_setWidth {k : BitVec 32} (hk : k ≠ BitVec.intMin 32) :
    ((-(k.signExtend 64)).setWidth 32).signExtend 64 = -(k.signExtend 64) := by
  rw [← BitVec.signExtend_neg_of_ne_intMin k hk]
  exact signExtend_setWidth (-k)

theorem toInt_signExtend_ne (k : BitVec 32) :
    (k.signExtend 64).toInt ≠ -2 ^ 31 ↔ k ≠ BitVec.intMin 32 := by
  have hmin : (BitVec.intMin 32).toInt = -2 ^ 31 := by decide
  rw [toInt_signExtend, ← hmin]
  exact not_congr BitVec.toInt_inj

/-! ## What the generated code computes -/

section Evaluations

variable (vm : VmOps) (e : Operand) (k : BitVec 32)

theorem specialised_literalPlusValue :
    Specialised vm .literalPlusValue e k
      = vm.arithOp .add e.value (.integer (k.signExtend 64)) := by
  simp only [Specialised, visitAdd, isLiteralInIntRange_signExtend, execArith, signExtend_setWidth]

/-- Of two literals the left one moves into the instruction. -/
theorem specialised_valuePlusLiteral :
    Specialised vm .valuePlusLiteral e k
      = vm.arithOp .add e.value (.integer (k.signExtend 64)) := by
  simp only [Specialised, visitAdd, isLiteralInIntRange_signExtend]
  cases h : isLiteralInIntRange e with
  | none => simp only [execArith, signExtend_setWidth]
  | some i =>
    obtain ⟨hv, hi⟩ := isLiteralInIntRange_eq_some h
    rw [hv, arithOp_integer, execArith, hi, Operand.value, arithOp_integer]
    exact congrArg (fun n => ArithResult.value (.integer n)) (BitVec.add_comm _ _)

theorem specialised_valueMinusLiteral :
    Specialised vm .valueMinusLiteral e k =
      if k = BitVec.intMin 32 then vm.arithOp .sub e.value (.integer (k.signExtend 64))
      else vm.arithOp .add e.value (.integer (-(k.signExtend 64))) := by
  simp only [Specialised, visitSub, isLiteralInIntRange_signExtend, toInt_signExtend_ne]
  cases Decidable.em (k = BitVec.intMin 32) with
  | inl hk =>
    rw [if_neg (fun h => h hk), if_pos hk]
    rfl
  | inr hk =>
    rw [if_pos hk, if_neg hk, execArith, neg_signExtend_setWidth hk]

end Evaluations

/-! ## Agreement -/

section Agreement

theorem agrees_refl (r : ArithResult) : Agrees r r := by
  cases r with
  | value o => rfl
  | error e => trivial
  | callMetaMethod closure mm o1 o2 => rfl

theorem agrees_value_iff {o : SQObject} {r : ArithResult} :
    Agrees (.value o) r ↔ .value o = r := by
  cases r <;> exact Iff.rfl

variable (vm : VmOps) (i : SQInteger)

/-- Without a common metamethod to call, two operations agree only when both fail. -/
theorem agrees_arithMetaMethod_iff {op op' : ArithOp} {o1 o2 o1' o2' : SQObject}
    (hne : op.metaMethod ≠ op'.metaMethod ∨ o1 ≠ o1') :
    Agrees (vm.arithMetaMethod op o1 o2) (vm.arithMetaMethod op' o1' o2')
      ↔ vm.metaMethodOf o1 op.metaMethod = none ∧ vm.metaMethodOf o1' op'.metaMethod = none := by
  simp only [VmOps.arithMetaMethod]
  cases h : vm.metaMethodOf o1 op.metaMethod with
  | none =>
    cases h' : vm.metaMethodOf o1' op'.metaMethod with
    | none => exact iff_of_true trivial ⟨rfl, rfl⟩
    | some c => exact iff_of_false (by rintro ⟨⟩) (by simp)
  | some c =>
    cases h' : vm.metaMethodOf o1' op'.metaMethod with
    | none => exact iff_of_false (by rintro ⟨⟩) (by simp)
    | some c' =>
      apply iff_of_false
      · intro heq
        injection heq with _ hmm ho
        exact hne.elim (fun hn => hn hmm) (fun hn => hn ho)
      · simp

/-- An integer operand on the left never has a metamethod, one on the right leaves the choice to the
other operand; strings are joined in the order of the operands. -/
theorem agrees_add_comm_iff (v : SQObject) :
    Agrees (vm.arithOp .add v (.integer i)) (vm.arithOp .add (.integer i) v) ↔
      (∀ s, v = .string s → printInt i ++ s = s ++ printInt i) ∧
        vm.metaMethodOf v .add = none := by
  cases v with
  | null =>
    rw [arithOp_null, integer_arithOp_null, integerOp, integerOp, BitVec.add_comm]
    exact iff_of_true (agrees_refl _) ⟨nofun, rfl⟩
  | integer j =>
    rw [arithOp_integer, arithOp_integer, integerOp, integerOp, BitVec.add_comm]
    exact iff_of_true (agrees_refl _) ⟨nofun, rfl⟩
  | float f =>
    rw [arithOp_float, integer_arithOp_float, VmOps.floatOp, VmOps.floatOp, float_add_comm]
    exact iff_of_true (agrees_refl _) ⟨nofun, rfl⟩
  | bool b =>
    rw [arithOp_bool, integer_arithOp_bool]
    exact iff_of_true trivial ⟨nofun, rfl⟩
  | string s =>
    rw [arithOp_string, integer_arithOp_string, if_pos rfl, if_pos rfl, agrees_value_iff]
    constructor
    · intro h
      injection h with ho
      injection ho with hs
      refine ⟨fun s' hs' => ?_, rfl⟩
      cases hs'
      exact hs.symm
    · intro h
      rw [h.1 s rfl]
  | ref t addr =>
    rw [arithOp_ref, integer_arithOp_ref, agrees_arithMetaMethod_iff vm (Or.inr (by simp))]
    constructor
    · exact fun h => ⟨nofun, h.1⟩
    · exact fun h => ⟨h.2, rfl⟩

/-- Adding the negated literal subtracts it from a number, except from a negative zero; it joins a
string and calls `_add`. -/
theorem agrees_sub_iff (v : SQObject) (hi : (-i).toInt = -i.toInt) :
    Agrees (vm.arithOp .add v (.integer (-i))) (vm.arithOp .sub v (.integer i)) ↔
      (∀ s, v ≠ .string s) ∧ vm.metaMethodOf v .add = none ∧ vm.metaMethodOf v .sub = none ∧
        ¬ (i.toInt = 0 ∧ ∃ f, v = .float f ∧ f.unpack = .zero .negative) := by
  cases v with
  | null =>
    rw [arithOp_null, arithOp_null, integerOp, integerOp, BitVec.sub_eq_add_neg]
    exact iff_of_true (agrees_refl _)
      ⟨nofun, rfl, rfl, fun ⟨_, _, hf, _⟩ => nomatch hf⟩
  | integer j =>
    rw [arithOp_integer, arithOp_integer, integerOp, integerOp, BitVec.sub_eq_add_neg]
    exact iff_of_true (agrees_refl _)
      ⟨nofun, rfl, rfl, fun ⟨_, _, hf, _⟩ => nomatch hf⟩
  | float f =>
    rw [arithOp_float, arithOp_float, VmOps.floatOp, VmOps.floatOp, hi, agrees_value_iff]
    have hvalue : (ArithResult.value (.float (f + .ofInt (-i.toInt)))
        = .value (.float (f - .ofInt i.toInt)))
        ↔ f - Float32.Model.ofInt i.toInt = f + .ofInt (-i.toInt) :=
      ⟨fun h => by injection h with h; injection h with h; exact h.symm, fun h => by rw [h]⟩
    rw [hvalue]
    have hrest : (∀ s, SQObject.float f ≠ .string s) ∧ vm.metaMethodOf (.float f) .add = none ∧
        vm.metaMethodOf (.float f) .sub = none :=
      ⟨nofun, rfl, rfl⟩
    cases Decidable.em (i.toInt = 0) with
    | inl h0 =>
      rw [h0, sub_ofInt_zero_iff]
      constructor
      · rintro hf
        refine ⟨hrest.1, hrest.2.1, hrest.2.2, ?_⟩
        rintro ⟨-, g, hg, hzero⟩
        cases hg
        exact hf hzero
      · exact fun h hf => h.2.2.2 ⟨rfl, f, rfl, hf⟩
    | inr h0 =>
      exact iff_of_true (sub_ofInt f h0) ⟨hrest.1, hrest.2.1, hrest.2.2, fun h => h0 h.1⟩
  | bool b =>
    rw [arithOp_bool, arithOp_bool]
    exact iff_of_true trivial
      ⟨nofun, rfl, rfl, fun ⟨_, _, hf, _⟩ => nomatch hf⟩
  | string s =>
    rw [arithOp_string, arithOp_string, if_pos rfl, if_neg (by decide), agrees_value_iff]
    exact iff_of_false (by rintro ⟨⟩) (fun h => h.1 s rfl)
  | ref t addr =>
    rw [arithOp_ref, arithOp_ref, agrees_arithMetaMethod_iff vm (Or.inl (by decide))]
    constructor
    · exact fun h => ⟨nofun, h.1, h.2, fun ⟨_, _, hf, _⟩ => nomatch hf⟩
    · exact fun h => ⟨h.2.1, h.2.2.1⟩

end Agreement

theorem toInt_neg_signExtend {k : BitVec 32} :
    (-(k.signExtend 64)).toInt = -(k.signExtend 64).toInt := by
  apply BitVec.toInt_neg_of_ne_intMin
  intro h
  have hmin := congrArg BitVec.toInt h
  have hlo := BitVec.le_toInt k
  rw [toInt_signExtend] at hmin
  have hval : (BitVec.intMin 64).toInt = -2 ^ 63 := by decide
  omega

theorem toInt_signExtend_eq_zero_iff (k : BitVec 32) : (k.signExtend 64).toInt = 0 ↔ k = 0 := by
  rw [toInt_signExtend]
  exact BitVec.toInt_inj (y := 0)

/-- The code generated for an integer literal and the generic instruction agree exactly when
`AddImmediateSound` holds. -/
theorem specialised_agrees_iff (vm : VmOps) (form : LiteralForm) (e : Operand) (k : BitVec 32) :
    Agrees (Specialised vm form e k) (Generic vm form e k)
      ↔ AddImmediateSound vm e.value k form := by
  cases form with
  | valuePlusLiteral =>
    rw [specialised_valuePlusLiteral]
    exact iff_of_true (agrees_refl _) trivial
  | literalPlusValue =>
    rw [specialised_literalPlusValue]
    exact agrees_add_comm_iff vm (k.signExtend 64) e.value
  | valueMinusLiteral =>
    rw [specialised_valueMinusLiteral]
    cases Decidable.em (k = BitVec.intMin 32) with
    | inl hk =>
      rw [if_pos hk]
      exact iff_of_true (agrees_refl _) (Or.inl hk)
    | inr hk =>
      rw [if_neg hk, AddImmediateSound, or_iff_right hk, ← toInt_signExtend_eq_zero_iff]
      exact agrees_sub_iff vm (k.signExtend 64) e.value toInt_neg_signExtend

/-- A machine whose objects have no metamethods. -/
def plainVmOps : VmOps where
  getMetaMethod _ _ _ := none
  toStringObj _ := .ok []
  fmod _ g := g

/-- `"10" - 5` joins `"10"` and `"-5"` where `_OP_SUB` fails. -/
theorem string_minus_literal_joins :
    Specialised plainVmOps .valueMinusLiteral (.expr (.string (asciiBytes "10"))) 5
        = .value (.string (asciiBytes "10-5")) ∧
      Generic plainVmOps .valueMinusLiteral (.expr (.string (asciiBytes "10"))) 5
        = raiseError "arith op - on between 'string' and 'integer'" ∧
      ¬ Agrees (Specialised plainVmOps .valueMinusLiteral (.expr (.string (asciiBytes "10"))) 5)
        (Generic plainVmOps .valueMinusLiteral (.expr (.string (asciiBytes "10"))) 5) := by
  have hspec : Specialised plainVmOps .valueMinusLiteral (.expr (.string (asciiBytes "10"))) 5
      = .value (.string (asciiBytes "10-5")) := by
    rw [specialised_valueMinusLiteral, if_neg (by decide), Operand.value, arithOp_string,
      if_pos rfl]
    exact congrArg (fun s => ArithResult.value (.string s)) (by decide)
  have hgen : Generic plainVmOps .valueMinusLiteral (.expr (.string (asciiBytes "10"))) 5
      = raiseError "arith op - on between 'string' and 'integer'" := by
    simp only [Generic, execArith, Operand.value]
    rw [arithOp_string, if_neg (by decide)]
    rfl
  refine ⟨hspec, hgen, ?_⟩
  rw [hspec, hgen]
  rintro ⟨⟩

end Quirrel.Compiler
