import Quirrel.ConstFold.Basic

set_option autoImplicit false

/-!
# Folding and evaluation

`Alike` says of every step of an expression, in terms of the machine at the two times, what makes it one
step for the folder and for the code: metamethods that answer alike, containers that are immutable and have
not changed, no key that only one of the two would find, no error pending at a missing slot. Then folding
agrees with evaluation exactly if every right operand of `&&`, `||` and `??` evaluates, also where
evaluation skips it (`agrees_iff`).
-/

namespace Quirrel.ConstFold

open Vm Compiler

variable (vm vm' : Machine) (ctx : Context)

/-- What the expression evaluates to is what the folder loads. `err` says whether `_lasterror` is set when
the expression is compiled. -/
def Agrees (e : Expr) (err : Bool) : Prop :=
  isConstEvaluable ctx e = true → ∀ v, run vm ctx vm' e = some v →
    (fold vm ctx e err).map Prod.fst = some v

/-! ## Single steps -/

/-- The literal operand of `+` or `-`, if there is one, may stand in `_OP_ADDI`. -/
def LiteralSound (ops : VmOps) (op : ArithOp) (lhs rhs : Operand) : Prop :=
  match op, isLiteralInIntRange lhs, isLiteralInIntRange rhs with
  | .add, some i, _ => AddImmediateSound ops rhs.value (i.setWidth 32) .literalPlusValue
  | .sub, _, some i => AddImmediateSound ops lhs.value (i.setWidth 32) .valueMinusLiteral
  | _, _, _ => True

/-- A binary operator on its operands. An `in` asks for the same key at both times, finds it at both or at
neither, and no error is set then. -/
def AlikeBin (op : BinOp) (l r : Expr) (a b : Value) (err : Bool) : Prop :=
  match op with
  | .arith op =>
    LiteralSound vm'.ops op (operandOf l a) (operandOf r b) ∧
      vm.binOp (.arith op) a b = vm'.binOp (.arith op) a b
  | .isIn =>
    vm.getImpl b a.obj true false ≠ .error ∧ vm.errorAfter (.get b a.obj) err = false ∧
      (vm.getImpl b a.obj true false).isOk = (vm'.getImpl b a.obj true false).isOk
  | op => vm.binOp op a b = vm'.binOp op a b

/-- A read: the container has not changed, the flags of the instruction make no difference to `sq_get`, what
is found is immutable as it is, and no error is set where a slot may be missing. -/
structure AlikeGet (container : Value) (key : SQObject)
    (noTypeMethods typeMethodsOnly isNullable err : Bool) : Prop where
  unchanged : vm.getImpl container key false false = vm'.getImpl container key false false
  flags : vm'.getImpl container key false false =
    vm'.getImpl container key noTypeMethods typeMethodsOnly
  frozen : ∀ v, vm'.getImpl container key false false = .ok v → v.freeze = v
  quiet : isNullable = true → vm.getImpl container key false false = .noMatch →
    vm.errorAfter (.get container key) err = false

/-- A field of an enum, which the code generator looks up as well: it is immutable as it is. Where it refuses
a missing field, `sq_get` finds none either. -/
def AlikeEnum (receiver : Expr) (key : SQObject) (res : Option Value) : Prop :=
  (∀ v, res = some v → v.freeze = v) ∧
    (res = none → ∀ name self v, receiver = .id name → ctx.constant name = some self →
      vm.getImpl self key false false ≠ .ok v)

/-! ## Expressions -/

/-- The container of `visitGetFieldExpr`: of an enum the constant, whatever the function is called. -/
def receiverValue (receiver : Expr) (field : String) (isNullable : Bool) : Option Value :=
  match enumField vm ctx receiver field isNullable with
  | some _ =>
    match receiver with
    | .id name => ctx.constant name
    | _ => none
  | none => run vm ctx vm' receiver

/-- Whether `_lasterror` is set after the expression, from whether it is set before, where all its operands
are evaluated. -/
def lastError : Expr → Bool → Bool
  | .literal _, err | .id _, err | .other, err => err
  | .paren e, _ => lastError e false
  | .inlineConst e, _ => ((fold vm ctx e false).map Prod.snd).getD false
  | .un op e, _ =>
    match run vm ctx vm' e with
    | some v => vm.errorAfter (.un op v) (lastError e false)
    | none => false
  | .bin op l r, _ =>
    match run vm ctx vm' l, run vm ctx vm' r with
    | some a, some b => vm.errorAfterBin op a b (lastError r (lastError l false))
    | _, _ => false
  | .logic _ l r, _ => lastError r (lastError l false)
  | .ter a b c, err =>
    match run vm ctx vm' a with
    | some v => if isFalse v.obj then lastError c (lastError a err) else lastError b (lastError a err)
    | none => false
  | .getField receiver field isNullable _, err =>
    match receiverValue vm vm' ctx receiver field isNullable with
    | some self => vm.errorAfter (.get self (.string (asciiBytes field))) (lastError receiver err)
    | none => false
  | .getSlot receiver key _, err =>
    match run vm ctx vm' receiver, run vm ctx vm' key with
    | some self, some k => vm.errorAfter (.get self k.obj) (lastError key (lastError receiver err))
    | _, _ => false

/-- Every step of the expression that is compiled or evaluated is one step, on the operands that it
evaluates to. No constant has the name of the function around the expression. -/
def Alike : Expr → Bool → Prop
  | .literal _, _ | .inlineConst _, _ | .other, _ => True
  | .id name, _ => ctx.functionName = some name → ctx.constant name = some ctx.callee
  | .paren e, _ => Alike e false
  | .un op e, _ =>
    Alike e false ∧ ∀ v, run vm ctx vm' e = some v → vm.unOp op v = vm'.unOp op v
  | .bin op l r, _ =>
    Alike l false ∧ Alike r (lastError vm vm' ctx l false) ∧
      ∀ a b, run vm ctx vm' l = some a → run vm ctx vm' r = some b →
        AlikeBin vm vm' op l r a b (lastError vm vm' ctx r (lastError vm vm' ctx l false))
  | .logic _ l r, _ => Alike l false ∧ Alike r (lastError vm vm' ctx l false)
  | .ter a b c, err =>
    Alike a err ∧ ∀ v, run vm ctx vm' a = some v →
      if isFalse v.obj then Alike c (lastError vm vm' ctx a err)
      else Alike b (lastError vm vm' ctx a err)
  | .getField receiver field isNullable isTypeMethod, err =>
    match enumField vm ctx receiver field isNullable with
    | some res => AlikeEnum vm ctx receiver (.string (asciiBytes field)) res
    | none =>
      Alike receiver err ∧ ∀ self, run vm ctx vm' receiver = some self →
        AlikeGet vm vm' self (.string (asciiBytes field)) (!ctx.canBeTypeMethod field) isTypeMethod
          isNullable (lastError vm vm' ctx receiver err)
  | .getSlot receiver key isNullable, err =>
    Alike receiver err ∧ Alike key (lastError vm vm' ctx receiver err) ∧
      ∀ self k, run vm ctx vm' receiver = some self → run vm ctx vm' key = some k →
        AlikeGet vm vm' self k.obj true false isNullable
          (lastError vm vm' ctx key (lastError vm vm' ctx receiver err))

/-- The right operand of every `&&`, `||` and `??` that the folder comes to evaluates, whether
evaluation comes to it or not. -/
def OperandsEvaluate : Expr → Prop
  | .literal _ | .id _ | .inlineConst _ | .other => True
  | .paren e | .un _ e => OperandsEvaluate e
  | .bin _ l r => OperandsEvaluate l ∧ OperandsEvaluate r
  | .logic _ l r =>
    OperandsEvaluate l ∧ OperandsEvaluate r ∧ ∃ v, run vm ctx vm' r = some v
  | .ter a b c =>
    OperandsEvaluate a ∧ ∀ v, run vm ctx vm' a = some v →
      if isFalse v.obj then OperandsEvaluate c else OperandsEvaluate b
  | .getField receiver _ _ _ => OperandsEvaluate receiver
  | .getSlot receiver key _ => OperandsEvaluate receiver ∧ OperandsEvaluate key

variable {vm vm' ctx}

/-! ## Steps that are alike -/

theorem answer_eq_of_agrees {r r' : ArithResult} (h : Compiler.Agrees r r') :
    vm.answer r = vm.answer r' := by
  cases r with
  | error e =>
    cases r' with
    | error e' => rfl
    | value o => exact nomatch h
    | callMetaMethod closure mm o1 o2 => exact nomatch h
  | value o => rw [show ArithResult.value o = r' from h]
  | callMetaMethod closure mm o1 o2 =>
    rw [show ArithResult.callMetaMethod closure mm o1 o2 = r' from h]

theorem eq_literal_of_range {e : Operand} {i : SQInteger} (h : isLiteralInIntRange e = some i) :
    e = .literal ((i.setWidth 32).signExtend 64) := by
  cases e with
  | expr v => cases h
  | literal j =>
    obtain ⟨hv, hi⟩ := isLiteralInIntRange_eq_some h
    rw [hi]
    injection hv with hv
    rw [hv]

/-- The code for `+` is the addition of the two operands exactly if the literal is sound. -/
theorem visitAdd_agrees_iff (ops : VmOps) (lhs rhs : Operand) :
    Compiler.Agrees (execArith ops (visitAdd lhs rhs)) (ops.arithOp .add lhs.value rhs.value) ↔
      LiteralSound ops .add lhs rhs := by
  cases hl : isLiteralInIntRange lhs with
  | some i =>
    have hiff := specialised_agrees_iff ops .literalPlusValue rhs (i.setWidth 32)
    simp only [LiteralSound, hl]
    rw [← hiff, eq_literal_of_range hl]
    rfl
  | none =>
    cases hr : isLiteralInIntRange rhs with
    | some i =>
      have hsound := (specialised_agrees_iff ops .valuePlusLiteral lhs (i.setWidth 32)).2 trivial
      simp only [LiteralSound, hl]
      rw [eq_literal_of_range hr]
      exact iff_of_true hsound trivial
    | none =>
      simp only [LiteralSound, visitAdd, hl, hr]
      exact iff_of_true (agrees_refl _) trivial

/-- The code for `-` is the subtraction of the two operands exactly if the literal is sound. -/
theorem visitSub_agrees_iff (ops : VmOps) (lhs rhs : Operand) :
    Compiler.Agrees (execArith ops (visitSub lhs rhs)) (ops.arithOp .sub lhs.value rhs.value) ↔
      LiteralSound ops .sub lhs rhs := by
  cases hr : isLiteralInIntRange rhs with
  | some i =>
    have hiff := specialised_agrees_iff ops .valueMinusLiteral lhs (i.setWidth 32)
    simp only [LiteralSound, hr]
    rw [← hiff, eq_literal_of_range hr]
    rfl
  | none =>
    simp only [LiteralSound, visitSub, hr]
    exact iff_of_true (agrees_refl _) trivial

theorem operandOf_value {e : Expr} {v : Value} (h : run vm ctx vm' e = some v) :
    (operandOf e v).value = v.obj := by
  unfold operandOf
  split
  · cases h
    rfl
  · rfl

theorem AlikeBin.foldBin_eq {op : BinOp} {l r : Expr} {a b : Value} {err : Bool}
    (h : AlikeBin vm vm' op l r a b err) (ha : run vm ctx vm' l = some a)
    (hb : run vm ctx vm' r = some b) : vm.foldBin op a b err = vm'.runBin op l r a b := by
  cases op with
  | arith op =>
    obtain ⟨hsound, hsame⟩ := h
    refine hsame.trans ?_
    show vm'.answer (vm'.ops.arithOp op a.obj b.obj) = _
    rw [← operandOf_value ha, ← operandOf_value hb]
    cases op with
    | add => exact (answer_eq_of_agrees ((visitAdd_agrees_iff ..).2 hsound)).symm
    | sub => exact (answer_eq_of_agrees ((visitSub_agrees_iff ..).2 hsound)).symm
    | mul => rw [operandOf_value ha, operandOf_value hb]; rfl
    | div => rw [operandOf_value ha, operandOf_value hb]; rfl
    | mod => rw [operandOf_value ha, operandOf_value hb]; rfl
  | isIn =>
    obtain ⟨herror, hquiet, hsame⟩ := h
    have hfound : vm.binOp .isIn a b = vm'.binOp .isIn a b :=
      congrArg (fun found => some (ofObj (.bool found))) hsame
    rw [Machine.foldBin]
    cases hget : vm.getImpl b a.obj true false with
    | error => exact absurd hget herror
    | ok v =>
      dsimp only
      rw [hquiet, if_neg Bool.false_ne_true]
      exact hfound
    | noMatch =>
      dsimp only
      rw [hquiet, if_neg Bool.false_ne_true]
      exact hfound
  | bw op => exact h
  | eq => exact h
  | ne => exact h
  | cmp op => exact h
  | instanceOf => exact h

theorem AlikeGet.foldGet_eq {self : Value} {key : SQObject}
    {noTypeMethods typeMethodsOnly isNullable err : Bool}
    (h : AlikeGet vm vm' self key noTypeMethods typeMethodsOnly isNullable err) :
    vm.foldGet self key isNullable err =
      vm'.runGet self key noTypeMethods typeMethodsOnly isNullable := by
  rw [Machine.foldGet, Machine.runGet, ← h.flags, h.unchanged]
  cases hget : vm'.getImpl self key false false with
  | ok v => exact congrArg some (h.frozen v hget)
  | error => rfl
  | noMatch =>
    cases isNullable with
    | false => rfl
    | true =>
      have hquiet := h.quiet rfl (h.unchanged.trans hget)
      simp [hquiet]

theorem freeze_freeze (v : Value) : v.freeze.freeze = v.freeze := by
  obtain ⟨obj, immutable⟩ := v
  cases obj <;> rfl

theorem freeze_propagateImmutable {self : Value} (h : self.immutable = true) (v : Value) :
    (propagateImmutable self v).freeze = propagateImmutable self v := by
  rw [propagateImmutable, if_pos h, freeze_freeze]

/-- A value found in an immutable container is immutable. -/
theorem freeze_of_getImpl {self : Value} (h : self.immutable = true) {key : SQObject}
    {noTypeMethods typeMethodsOnly : Bool} {v : Value}
    (hv : vm.getImpl self key noTypeMethods typeMethodsOnly = .ok v) : v.freeze = v := by
  have hprop : ∀ w, SlotStatus.ok (propagateImmutable self w) = .ok v → v.freeze = v := by
    intro w hw
    injection hw with hw
    rw [← hw]
    exact freeze_propagateImmutable h w
  have hback : vm.getFallBack self key noTypeMethods = .ok v → v.freeze = v := by
    intro hback
    unfold Machine.getFallBack at hback
    split at hback
    · next w _ => exact hprop w hback
    · cases hback
    · split at hback
      · cases hback
      · split at hback
        · next w _ => exact hprop w hback
        · cases hback
  unfold Machine.getImpl at hv
  split at hv
  · split at hv
    · next w _ => exact hprop w hv
    · cases hv
  · split at hv
    · exact hback hv
    · split at hv
      · next w _ => exact hprop w hv
      · cases hv
    · split at hv
      · next w _ => exact hprop w hv
      · exact hback hv

/-- A read of an immutable container that has not changed is one step, unless it is one of a type method or
an error is set. -/
theorem alikeGet_of_immutable {self : Value} {key : SQObject}
    {noTypeMethods typeMethodsOnly isNullable err : Bool} (himmutable : self.immutable = true)
    (hunchanged : vm.getImpl self key false false = vm'.getImpl self key false false)
    (hflags : vm'.getImpl self key false false = vm'.getImpl self key noTypeMethods typeMethodsOnly)
    (hquiet : vm.errorAfter (.get self key) err = false) :
    AlikeGet vm vm' self key noTypeMethods typeMethodsOnly isNullable err :=
  ⟨hunchanged, hflags, fun _ hv => freeze_of_getImpl himmutable hv, fun _ _ => hquiet⟩

theorem enumField_eq_some {receiver : Expr} {field : String} {isNullable : Bool} {res : Option Value}
    (h : enumField vm ctx receiver field isNullable = some res) :
    ∃ name addr, receiver = .id name ∧ ctx.constant name = some ⟨.ref .table addr, true⟩ ∧
      isNullable = false ∧ vm.slot (.ref .table addr) (.string (asciiBytes field)) = res := by
  unfold enumField at h
  split at h
  · next name =>
    split at h
    · next addr hconst =>
      split at h
      · cases h
      · next hnullable =>
        refine ⟨name, addr, rfl, hconst, Bool.eq_false_iff.mpr hnullable, ?_⟩
        split at h
        · next next hslot =>
          split at h
          · cases h
          · exact hslot.trans (Option.some.inj h)
        · next hslot =>
          split at h
          · cases h
          · exact hslot.trans (Option.some.inj h)
    · cases h
  · cases h

/-- An enum is a constant table, where `GetImpl` finds the same slot. -/
theorem AlikeEnum.fold_eq {receiver : Expr} {field : String} {isNullable isTypeMethod : Bool}
    {res : Option Value} (henum : enumField vm ctx receiver field isNullable = some res)
    (h : AlikeEnum vm ctx receiver (.string (asciiBytes field)) res) (err : Bool) :
    fold vm ctx (.getField receiver field isNullable isTypeMethod) err =
      res.map fun v => (v, lastError vm vm' ctx (.getField receiver field isNullable isTypeMethod) err) := by
  obtain ⟨name, addr, rfl, hconst, rfl, hslot⟩ := enumField_eq_some henum
  have hself : receiverValue vm vm' ctx (.id name) field false = some ⟨.ref .table addr, true⟩ := by
    simp only [receiverValue, henum, hconst]
  have hget : vm.foldGet ⟨.ref .table addr, true⟩ (.string (asciiBytes field)) false err = res := by
    cases res with
    | some v =>
      have hok : vm.getImpl ⟨.ref .table addr, true⟩ (.string (asciiBytes field)) false false =
          .ok v.freeze := by
        simp only [Machine.getImpl, Bool.false_eq_true, if_false, ownSlots, hslot]
        rfl
      rw [Machine.foldGet, hok]
      exact congrArg some ((freeze_freeze v).trans (h.1 v rfl))
    | none =>
      rw [Machine.foldGet]
      cases hfound : vm.getImpl ⟨.ref .table addr, true⟩ (.string (asciiBytes field)) false false with
      | ok v => exact absurd hfound (h.2 rfl name _ v rfl hconst)
      | noMatch => rfl
      | error => rfl
  rw [fold, fold, hconst, lastError, hself]
  show (vm.foldGet _ _ false err >>= _) = _
  rw [hget]
  cases res with
  | none => rfl
  | some v => rfl

/-! ## Both directions -/

/-- Where every operand evaluates, the folder does what evaluation does. -/
theorem fold_eq_run {e : Expr} {err : Bool} (halike : Alike vm vm' ctx e err)
    (hops : OperandsEvaluate vm vm' ctx e) (hc : isConstEvaluable ctx e = true) :
    fold vm ctx e err = (run vm ctx vm' e).map fun v => (v, lastError vm vm' ctx e err) := by
  -- By induction on the expression; the pending error goes along from operand to operand.
  induction e generalizing err with
  | literal o => rfl
  | id name =>
    rw [fold, run]
    split
    · next h => rw [halike h]; rfl
    · rfl
  | paren e ih => exact ih halike hops hc
  | inlineConst e =>
    rw [fold, run, lastError]
    cases fold vm ctx e false with
    | none => rfl
    | some p => rfl
  | un op e ih =>
    obtain ⟨he, hstep⟩ := halike
    rw [fold, run, ih he hops hc, lastError]
    cases hv : run vm ctx vm' e with
    | none => rfl
    | some v =>
      -- The operand has a value: the operator is one step on it.
      show (vm.unOp op v >>= _) = Option.map _ (vm'.unOp op v)
      rw [hstep v hv]
      cases vm'.unOp op v with
      | none => rfl
      | some res => rfl
  | bin op l r ihl ihr =>
    obtain ⟨hl, hr, hstep⟩ := halike
    obtain ⟨hcl, hcr⟩ := (Bool.and_eq_true _ _).mp hc
    rw [fold, run, ihl hl hops.1 hcl, lastError]
    cases ha : run vm ctx vm' l with
    | none => rfl
    | some a =>
      show (fold vm ctx r _ >>= _) = _
      rw [ihr hr hops.2 hcr]
      cases hb : run vm ctx vm' r with
      | none => rfl
      | some b =>
        -- Both operands have a value, and the instruction computes what the folder does.
        show (vm.foldBin op a b _ >>= _) = Option.map _ (vm'.runBin op l r a b)
        rw [(hstep a b ha hb).foldBin_eq ha hb]
        cases vm'.runBin op l r a b with
        | none => rfl
        | some res => rfl
  | logic op l r ihl ihr =>
    -- The right operand evaluates, so the folder has both values and picks one of them.
    obtain ⟨hol, hor, b, hb⟩ := hops
    obtain ⟨hcl, hcr⟩ := (Bool.and_eq_true _ _).mp hc
    rw [fold, run, ihl halike.1 hol hcl, lastError]
    cases run vm ctx vm' l with
    | none => rfl
    | some a =>
      show (fold vm ctx r _ >>= _) = _
      rw [ihr halike.2 hor hcr, hb]
      show some (if op.isDecided a then a else b, _) =
        Option.map _ (if op.isDecided a then some a else some b)
      split <;> rfl
  | ter a b c iha ihb ihc =>
    obtain ⟨ha, hbranch⟩ := halike
    obtain ⟨hoa, hobranch⟩ := hops
    obtain ⟨hcab, hcc⟩ := (Bool.and_eq_true _ _).mp hc
    obtain ⟨hca, hcb⟩ := (Bool.and_eq_true _ _).mp hcab
    rw [fold, run, iha ha hoa hca, lastError]
    cases hv : run vm ctx vm' a with
    | none => rfl
    | some v =>
      -- The folder too visits only the branch that is taken.
      have hs := hbranch v hv
      have ho := hobranch v hv
      show (if isFalse v.obj then fold vm ctx c _ else fold vm ctx b _) =
        Option.map _ (if isFalse v.obj then run vm ctx vm' c else run vm ctx vm' b)
      cases hfalse : isFalse v.obj with
      | true =>
        rw [hfalse] at hs ho
        simp only [hfalse, if_true]
        exact ihc hs ho hcc
      | false =>
        rw [hfalse] at hs ho
        simp only [hfalse, Bool.false_eq_true, if_false]
        exact ihb hs ho hcb
  | getField receiver field isNullable isTypeMethod ih =>
    rw [Alike] at halike
    -- A field of an enum is looked up by the code generator, any other field is read.
    rw [run]
    cases henum : enumField vm ctx receiver field isNullable with
    | some res =>
      rw [henum] at halike
      exact AlikeEnum.fold_eq henum halike err
    | none =>
      rw [henum] at halike
      obtain ⟨hr, hstep⟩ := halike
      have hself : receiverValue vm vm' ctx receiver field isNullable = run vm ctx vm' receiver := by
        simp only [receiverValue, henum]
      rw [fold, ih hr hops hc, lastError, hself]
      cases hv : run vm ctx vm' receiver with
      | none => rfl
      | some self =>
        show (vm.foldGet self _ isNullable _ >>= _) = Option.map _ (vm'.runGet self _ _ _ isNullable)
        rw [(hstep self hv).foldGet_eq]
        cases vm'.runGet self (.string (asciiBytes field)) (!ctx.canBeTypeMethod field) isTypeMethod
            isNullable with
        | none => rfl
        | some v => rfl
  | getSlot receiver key isNullable ihr ihk =>
    obtain ⟨hr, hk, hstep⟩ := halike
    obtain ⟨hcr, hck⟩ := (Bool.and_eq_true _ _).mp hc
    rw [fold, run, ihr hr hops.1 hcr, lastError]
    cases hself : run vm ctx vm' receiver with
    | none => rfl
    | some self =>
      show (fold vm ctx key _ >>= _) = _
      rw [ihk hk hops.2 hck]
      cases hkey : run vm ctx vm' key with
      | none => rfl
      | some k =>
        show (vm.foldGet self k.obj isNullable _ >>= _) =
          Option.map _ (vm'.runGet self k.obj true false isNullable)
        rw [(hstep self k hself hkey).foldGet_eq]
        cases vm'.runGet self k.obj true false isNullable with
        | none => rfl
        | some v => rfl
  | other => cases hc

/-- What an expression that folds evaluates to. -/
theorem run_of_fold {e : Expr} {err err' : Bool} {v : Value} (halike : Alike vm vm' ctx e err)
    (hops : OperandsEvaluate vm vm' ctx e) (hc : isConstEvaluable ctx e = true)
    (h : fold vm ctx e err = some (v, err')) :
    run vm ctx vm' e = some v ∧ err' = lastError vm vm' ctx e err := by
  rw [fold_eq_run halike hops hc] at h
  obtain ⟨w, hw, hpair⟩ := Option.map_eq_some_iff.1 h
  injection hpair with hv herr
  exact ⟨hv ▸ hw, herr.symm⟩

/-- What folds has been evaluated as a whole, the skipped operands included. -/
theorem operandsEvaluate_of_fold {e : Expr} {err : Bool} (halike : Alike vm vm' ctx e err)
    (hc : isConstEvaluable ctx e = true) {res : Value × Bool} (h : fold vm ctx e err = some res) :
    OperandsEvaluate vm vm' ctx e := by
  induction e generalizing err res with
  | literal o => trivial
  | id name => trivial
  | paren e ih => exact ih halike hc h
  | inlineConst e => trivial
  | un op e ih =>
    obtain ⟨p, hp, -⟩ := Option.bind_eq_some_iff.1 h
    exact ih halike.1 hc hp
  | bin op l r ihl ihr =>
    obtain ⟨hcl, hcr⟩ := (Bool.and_eq_true _ _).mp hc
    obtain ⟨⟨a, err₁⟩, hl, h⟩ := Option.bind_eq_some_iff.1 h
    obtain ⟨q, hr, -⟩ := Option.bind_eq_some_iff.1 h
    have hol := ihl halike.1 hcl hl
    obtain ⟨-, rfl⟩ := run_of_fold halike.1 hol hcl hl
    exact ⟨hol, ihr halike.2.1 hcr hr⟩
  | logic op l r ihl ihr =>
    obtain ⟨hcl, hcr⟩ := (Bool.and_eq_true _ _).mp hc
    obtain ⟨⟨a, err₁⟩, hl, h⟩ := Option.bind_eq_some_iff.1 h
    obtain ⟨⟨b, err₂⟩, hr, -⟩ := Option.bind_eq_some_iff.1 h
    have hol := ihl halike.1 hcl hl
    obtain ⟨-, rfl⟩ := run_of_fold halike.1 hol hcl hl
    have hor := ihr halike.2 hcr hr
    -- the folder got a value for the operand, so evaluation does
    exact ⟨hol, hor, b, (run_of_fold halike.2 hor hcr hr).1⟩
  | ter a b c iha ihb ihc =>
    obtain ⟨ha, hbranch⟩ := halike
    obtain ⟨hcab, hcc⟩ := (Bool.and_eq_true _ _).mp hc
    obtain ⟨hca, hcb⟩ := (Bool.and_eq_true _ _).mp hcab
    obtain ⟨⟨v, err₁⟩, hv, h⟩ := Option.bind_eq_some_iff.1 h
    have hoa := iha ha hca hv
    obtain ⟨hrun, rfl⟩ := run_of_fold ha hoa hca hv
    refine ⟨hoa, ?_⟩
    intro w hw
    obtain rfl : v = w := Option.some.inj (hrun.symm.trans hw)
    have hs := hbranch v hrun
    dsimp only at h
    cases hfalse : isFalse v.obj with
    | true =>
      rw [hfalse] at hs h
      exact ihc hs hcc h
    | false =>
      rw [hfalse] at hs h
      exact ihb hs hcb h
  | getField receiver field isNullable isTypeMethod ih =>
    rw [Alike] at halike
    cases henum : enumField vm ctx receiver field isNullable with
    | some res =>
      obtain ⟨name, addr, rfl, -⟩ := enumField_eq_some henum
      trivial
    | none =>
      rw [henum] at halike
      obtain ⟨p, hp, -⟩ := Option.bind_eq_some_iff.1 h
      exact ih halike.1 hc hp
  | getSlot receiver key isNullable ihr ihk =>
    obtain ⟨hcr, hck⟩ := (Bool.and_eq_true _ _).mp hc
    obtain ⟨⟨self, err₁⟩, hr, h⟩ := Option.bind_eq_some_iff.1 h
    obtain ⟨q, hk, -⟩ := Option.bind_eq_some_iff.1 h
    have hor := ihr halike.1 hcr hr
    obtain ⟨-, rfl⟩ := run_of_fold halike.1 hor hcr hr
    exact ⟨hor, ihk halike.2.1 hck hk⟩
  | other => trivial

/-- A machine without metamethods, containers or type methods. -/
def plainMachine : Machine where
  ops := plainVmOps
  callMetaMethod _ _ _ _ := none
  negOp _ := none
  typeOf v := some (ofObj (.string (asciiBytes v.obj.getTypeName)))
  bwOp _ _ _ := none
  isEqual a b := a.obj = b.obj
  cmpOp _ _ _ := none
  isInstanceOf _ _ := false
  slot _ _ := none
  fallBackGet _ _ := .noMatch
  typeMethod _ _ := none
  errorAfter _ err := err

/-- A context without names. -/
def emptyContext : Context where
  isVariable _ := false
  constant _ := none
  functionName := none
  callee := ofObj .null
  canBeTypeMethod _ := false
  canBeTableTypeMethod _ := false

/-- `false && 1 / i` -/
def falseAndQuotient (i : SQInteger) : Expr :=
  .logic .and (.literal (.bool false))
    (.bin (.arith .div) (.literal (.integer 1)) (.literal (.integer i)))

theorem alike_falseAndQuotient (i : SQInteger) (err : Bool) :
    Alike plainMachine plainMachine emptyContext (falseAndQuotient i) err :=
  ⟨trivial, trivial, trivial, fun _ _ _ _ => ⟨trivial, rfl⟩⟩

/-- A constant table without slots. -/
def oneConstant : Context := { emptyContext with constant _ := some ⟨.ref .table 1, true⟩ }

-- a slot that is missing is null, unless an old error is set
example : run plainMachine oneConstant plainMachine (.getField (.id "T") "b" true false) =
      some (ofObj .null) ∧
    fold plainMachine oneConstant (.getField (.id "T") "b" true false) true = none :=
  ⟨rfl, rfl⟩

end Quirrel.ConstFold
