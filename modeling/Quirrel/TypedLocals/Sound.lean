import Mathlib.Logic.Relation
import Quirrel.TypedLocals.Writes

set_option autoImplicit false

/-!
# Typed variables hold values of their type

A variable is an address that script code can still read, by its name or through a closure, with the
type mask that it was declared with. The check comes after the store everywhere but in a declaration
and in a compound assignment to a captured variable, so that a failed check leaves the value where a
handler reads it; `++` and `--` have no check. `typed_locals` says what a run has to avoid, and that
a write has to avoid no less.
-/

namespace Quirrel.TypedLocals

open Vm

/-! ## Runs -/

/-- The memory, and the declared types of the places in it. -/
structure Machine where
  memory : Memory
  declared : Addr → Option TypeMask

/-- Every place holds a value of its declared type. -/
def Machine.Typed (s : Machine) : Prop :=
  ∀ a mask, s.declared a = some mask → checkTypemask (s.memory a) mask = true

/-- The place of a variable. -/
def Site.addr (site : Site) : Target → Addr
  | .localVar pos => site.reg pos
  | .outer pos => site.outer pos

/-- What script code does between two points where it can read its variables: a write; another store
into a register, by an instruction or by `exception_trap`; a call that binds a parameter, or a loop or
handler that binds a variable (`anyMask`); the end of a scope with the variables `out`; a variable that
moves, by `_OP_CLOSE` or with the frame of a generator; and an exception that leaves scopes with the
variables `out`, of which closures have captured `captured`, to a handler with its variable in `ex`. -/
inductive Step where
  | write (site : Site) (ans : Answers) (w : Write)
  | store (a : Addr) (o : SQObject)
  | bind (a : Addr) (mask : TypeMask) (o : SQObject)
  | leave (out : Addr → Bool)
  | move (a b : Addr)
  | unwind (out captured : Addr → Bool) (ex : Addr) (err : SQObject)

/-- The variable that a declaration makes known once its code has run. -/
def Write.declares (site : Site) : Write → Option (Addr × TypeMask)
  | .declare dest _ mask _ => some (site.reg dest, mask)
  | .declareNull dest mask => some (site.reg dest, mask)
  | _ => none

/-- The place that a statement declares gets its mask. -/
def declareVar (declared : Addr → Option TypeMask) :
    Option (Addr × TypeMask) → Addr → Option TypeMask
  | some (a, mask) => Function.update declared a (some mask)
  | none => declared

variable (vm : VmOps)

/-- One step of the program. -/
def Machine.step (s : Machine) : Step → Machine
  | .write site ans w =>
    match execAll vm site ans s.memory (emit w) with
    | .done m => ⟨m, declareVar s.declared (w.declares site)⟩
    | .raised m => ⟨m, s.declared⟩
  | .store a o => ⟨Function.update s.memory a o, s.declared⟩
  -- the call fails where the argument has another type
  | .bind a mask o =>
    if checkTypemask o mask then
      ⟨Function.update s.memory a o, Function.update s.declared a (some mask)⟩
    else s
  | .leave out => ⟨s.memory, fun a => if out a then none else s.declared a⟩
  | .move a b =>
    ⟨Function.update s.memory b (s.memory a),
      Function.update (Function.update s.declared b (s.declared a)) a none⟩
  | .unwind out captured ex err =>
    ⟨Function.update s.memory ex err,
      fun a => if out a && !captured a then none else s.declared a⟩

/-- The registers that the code generator allocates for a write: those it computes in belong to no
variable, and the name leads to the variable. -/
def Write.Allocated (site : Site) (declared : Addr → Option TypeMask) : Write → Prop
  | .declare dest _ _ _ => declared (site.reg dest) = none ∧ dest < 256
  | .declareNull dest _ => declared (site.reg dest) = none
  | .field target _ mask _ => declared (site.reg target) = some mask
  | .assign var src target mask _ =>
    declared (site.addr var) = some mask ∧ declared (site.reg target) = none ∧ src < 256
  | .compoundArith _ var _ tmp target mask =>
    declared (site.addr var) = some mask ∧ declared (site.reg tmp) = none ∧
      declared (site.reg target) = none ∧ tmp < 256
  | .inc _ var tmp1 tmp2 _ =>
    (∃ mask, declared (site.addr var) = some mask) ∧ declared (site.reg tmp1) = none ∧
      declared (site.reg tmp2) = none

/-- The steps of compiled code. -/
def Step.Valid (s : Machine) : Step → Prop
  | .write site _ w => w.Allocated site s.declared
  | .store a _ => s.declared a = none
  | .bind a _ _ => s.declared a = none
  | .leave _ => True
  | .move a b => s.declared b = none ∧ a ≠ b
  | .unwind out _ ex _ => s.declared ex = none ∨ out ex = true

/-- Every value that is given has the type. -/
def Fits (o : Option SQObject) (mask : TypeMask) : Prop :=
  ∀ v, o = some v → checkTypemask v mask = true

/-- The value that was found. -/
def Found.value : Found → Option SQObject
  | .slot o => some o
  | .missing | .raised => none

/-- What a write needs to leave its variable with a value of the type. -/
def Write.Meets (site : Site) (ans : Answers) (s : Machine) : Write → Prop
  | .declare _ src mask inferred =>
    checkInferredType mask inferred = true → Fits (some (s.memory (site.reg src))) mask
  | .declareNull _ mask => Fits (some .null) mask
  | .field _ _ mask _ => Fits ans.get.value mask
  | .assign _ src _ mask _ => Fits (some (s.memory (site.reg src))) mask
  | .compoundArith op (.localVar p1) val _ _ mask =>
    Fits (arith vm ans op (s.memory (site.reg p1)) (s.memory (site.reg val))) mask
  | .compoundArith _ (.outer _) _ _ _ _ => True
  | .inc _ var _ _ diff =>
    ∀ mask, s.declared (site.addr var) = some mask →
      Fits (increment vm ans diff (s.memory (site.addr var))) mask

/-- The condition on a step in the state before it. -/
def Step.Meets (s : Machine) : Step → Prop
  | .write site ans w => w.Meets vm site ans s
  | .unwind _ captured _ _ => ∀ a, captured a = false
  | _ => True

/-! ## Stores -/

section Store

variable {memory : Memory} {declared : Addr → Option TypeMask} {a : Addr} {o : SQObject}

/-- A register that belongs to no variable may hold anything. -/
theorem typed_update_temp (ha : declared a = none) :
    Machine.Typed ⟨Function.update memory a o, declared⟩ ↔ Machine.Typed ⟨memory, declared⟩ := by
  have hother : ∀ b mask, declared b = some mask → Function.update memory a o b = memory b := by
    intro b mask hb
    apply Function.update_of_ne
    rintro rfl
    rw [ha] at hb
    cases hb
  constructor
  · intro h b mask hb
    have hfit := h b mask hb
    rwa [show Machine.memory ⟨Function.update memory a o, declared⟩ b = memory b from
      hother b mask hb] at hfit
  · intro h b mask hb
    show checkTypemask (Function.update memory a o b) mask = true
    rw [hother b mask hb]
    exact h b mask hb

/-- The variable at the address gets its value as it is. -/
theorem typed_update_var {mask : TypeMask} (h : Machine.Typed ⟨memory, declared⟩)
    (ha : declared a = some mask) :
    Machine.Typed ⟨Function.update memory a o, declared⟩ ↔ checkTypemask o mask = true := by
  constructor
  · intro h'
    have hfit := h' a mask ha
    rwa [show Machine.memory ⟨Function.update memory a o, declared⟩ a = o from
      Function.update_self a o memory] at hfit
  · intro hfit b mask' hb
    show checkTypemask (Function.update memory a o b) mask' = true
    by_cases hba : b = a
    · subst hba
      rw [show declared b = some mask' from hb] at ha
      cases ha
      rwa [Function.update_self]
    · rw [Function.update_of_ne hba]
      exact h b mask' hb

theorem typed_declare {mask : TypeMask} (h : Machine.Typed ⟨memory, declared⟩) :
    Machine.Typed ⟨memory, Function.update declared a (some mask)⟩ ↔
      checkTypemask (memory a) mask = true := by
  constructor
  · intro h'
    exact h' a mask (Function.update_self a _ declared)
  · intro hfit b mask' hb
    by_cases hba : b = a
    · subst hba
      have hmask : some mask = some mask' := (Function.update_self b _ declared).symm.trans hb
      cases hmask
      exact hfit
    · exact h b mask' ((Function.update_of_ne hba _ _).symm.trans hb)

theorem fits_some {mask : TypeMask} : Fits (some o) mask ↔ checkTypemask o mask = true := by
  constructor
  · intro h
    exact h o rfl
  · rintro h v hv
    cases hv
    exact h

theorem fits_none {mask : TypeMask} : Fits none mask :=
  fun _ h => nomatch h

end Store

/-! ## Checks -/

section Check

variable (site : Site) (ans : Answers) (m : Memory)

theorem execAll_check (target : Nat) (mask : TypeMask) :
    (execAll vm site ans m (emitCheckType target mask)).memory = m := by
  unfold emitCheckType
  split
  · rw [execAll, exec]
    cases checkTypemask (m (site.reg target)) mask <;> rfl
  · rfl

theorem execAll_checkUnlessInferred (target : Nat) (mask inferred : TypeMask) :
    (execAll vm site ans m (emitCheckUnlessInferred target mask inferred)).memory = m := by
  unfold emitCheckUnlessInferred
  split
  · rfl
  · exact execAll_check vm site ans m target mask

/-- Where the code gets past a check, the value has the type. -/
theorem execAll_check_append {target : Nat} (ht : target < 256) (mask : TypeMask)
    (is : List Instr) :
    execAll vm site ans m (emitCheckType target mask ++ is) =
      if checkTypemask (m (site.reg target)) mask then execAll vm site ans m is
      else .raised m := by
  by_cases hmask : mask = anyMask
  · have hnone : emitCheckType target mask = [] := if_neg fun h => h.1 hmask
    rw [hnone, hmask, checkTypemask_anyMask, if_pos rfl, List.nil_append]
  · have hone : emitCheckType target mask = [.checkType target mask] := if_pos ⟨hmask, ht⟩
    rw [hone, List.singleton_append, execAll, exec]
    cases checkTypemask (m (site.reg target)) mask <;> rfl

theorem step_write (s : Machine) (w : Write) :
    s.step vm (.write site ans w) =
      match execAll vm site ans s.memory (emit w) with
      | .done m => ⟨m, declareVar s.declared (w.declares site)⟩
      | .raised m => ⟨m, s.declared⟩ := rfl

theorem step_write_of_declares_none {s : Machine} {w : Write} (h : w.declares site = none) :
    s.step vm (.write site ans w) = ⟨(execAll vm site ans s.memory (emit w)).memory, s.declared⟩ := by
  rw [step_write, h]
  cases execAll vm site ans s.memory (emit w) <;> rfl

end Check

/-! ## One write -/

section Write

variable {vm} {s : Machine} {site : Site} {ans : Answers}

theorem typed_setouter {memory : Memory} {declared : Addr → Option TypeMask}
    {target pos src : Nat} {mask : TypeMask} (h : Machine.Typed ⟨memory, declared⟩)
    (hvar : declared (site.outer pos) = some mask) (htarget : declared (site.reg target) = none) :
    ∃ m, exec vm site ans memory (.setouter target pos src) = .done m ∧
      (Machine.Typed ⟨m, declared⟩ ↔ checkTypemask (memory (site.reg src)) mask = true) := by
  refine ⟨_, rfl, ?_⟩
  split
  · rw [typed_update_temp htarget]
    exact typed_update_var h hvar
  · exact typed_update_var h hvar

/-- The check is before the store into the captured variable. -/
theorem compoundArith_outer_typed (hs : s.Typed) {op : ArithOp} {pos val tmp target : Nat}
    {mask : TypeMask} (hvar : s.declared (site.outer pos) = some mask)
    (htmp : s.declared (site.reg tmp) = none) (htarget : s.declared (site.reg target) = none)
    (hlt : tmp < 256) :
    Machine.Typed ⟨(execAll vm site ans s.memory
      (emit (.compoundArith op (.outer pos) val tmp target mask))).memory, s.declared⟩ := by
  let m₁ := Function.update s.memory (site.reg tmp) (s.memory (site.outer pos))
  have h₁ : Machine.Typed ⟨m₁, s.declared⟩ := (typed_update_temp htmp).2 hs
  show Machine.Typed ⟨(execAll vm site ans m₁ (.arith op tmp val tmp ::
    (emitCheckType tmp mask ++ [.setouter target pos tmp]))).memory, s.declared⟩
  rw [execAll, exec]
  cases harith : arith vm ans op (m₁ (site.reg tmp)) (m₁ (site.reg val)) with
  | none => exact h₁
  | some o =>
    have h₂ : Machine.Typed ⟨Function.update m₁ (site.reg tmp) o, s.declared⟩ :=
      (typed_update_temp htmp).2 h₁
    dsimp only
    rw [execAll_check_append vm site ans _ hlt]
    split
    · next hfit =>
      obtain ⟨m₃, hm₃, htyped⟩ := @typed_setouter vm site ans _ _ target pos tmp _ h₂ hvar htarget
      rw [execAll, hm₃]
      exact htyped.2 hfit
    · exact h₂

theorem inc_localVar_typed (hs : s.Typed) {isPostfix : Bool} {pos tmp1 tmp2 : Nat}
    {diff : SQInteger} {mask : TypeMask} (hvar : s.declared (site.reg pos) = some mask)
    (htmp : s.declared (site.reg tmp1) = none) :
    Machine.Typed ⟨(execAll vm site ans s.memory
      (emit (.inc isPostfix (.localVar pos) tmp1 tmp2 diff))).memory, s.declared⟩ ↔
      Fits (increment vm ans diff (s.memory (site.reg pos))) mask := by
  cases isPostfix with
  | false =>
    rw [emit, execAll, exec]
    cases increment vm ans diff (s.memory (site.reg pos)) with
    | none => exact iff_of_true hs fits_none
    | some o => exact (typed_update_var hs hvar).trans fits_some.symm
  | true =>
    rw [emit, execAll, exec]
    cases increment vm ans diff (s.memory (site.reg pos)) with
    | none => exact iff_of_true hs fits_none
    | some o => exact (typed_update_var ((typed_update_temp htmp).2 hs) hvar).trans fits_some.symm

/-- `_OP_GETOUTER`, `_OP_PINCL` and `_OP_SETOUTER`: there is no check. -/
theorem inc_outer_typed (hs : s.Typed) {pos target tmp : Nat} {diff : SQInteger} {mask : TypeMask}
    (hvar : s.declared (site.outer pos) = some mask)
    (htarget : s.declared (site.reg target) = none) (htmp : s.declared (site.reg tmp) = none) :
    Machine.Typed ⟨(execAll vm site ans s.memory
      [.getouter tmp pos, .pincl target tmp diff, .setouter tmp pos tmp]).memory, s.declared⟩ ↔
      Fits (increment vm ans diff (s.memory (site.outer pos))) mask := by
  let m₁ := Function.update s.memory (site.reg tmp) (s.memory (site.outer pos))
  have h₁ : Machine.Typed ⟨m₁, s.declared⟩ := (typed_update_temp htmp).2 hs
  have hread : m₁ (site.reg tmp) = s.memory (site.outer pos) := Function.update_self _ _ _
  show Machine.Typed ⟨(execAll vm site ans m₁
    [.pincl target tmp diff, .setouter tmp pos tmp]).memory, s.declared⟩ ↔ _
  rw [execAll, exec, hread]
  cases increment vm ans diff (s.memory (site.outer pos)) with
  | none => exact iff_of_true h₁ fits_none
  | some o =>
    have h₂ : Machine.Typed ⟨Function.update (Function.update m₁ (site.reg target)
        (s.memory (site.outer pos))) (site.reg tmp) o, s.declared⟩ :=
      (typed_update_temp htmp).2 ((typed_update_temp htarget).2 h₁)
    obtain ⟨m₃, hm₃, htyped⟩ := @typed_setouter vm site ans _ _ tmp pos tmp _ h₂ hvar htmp
    dsimp only
    rw [execAll, hm₃]
    refine htyped.trans ?_
    rw [Function.update_self]
    exact fits_some.symm

/-- The variable is declared after its check. -/
theorem declare_typed (hs : s.Typed) {dest src : Nat} {mask inferred : TypeMask}
    (hdest : s.declared (site.reg dest) = none) (hlt : dest < 256) :
    (s.step vm (.write site ans (.declare dest src mask inferred))).Typed ↔
      (checkInferredType mask inferred = true →
        Fits (some (s.memory (site.reg src))) mask) := by
  obtain ⟨m₁, h₁, hread, hcode⟩ : ∃ m₁, Machine.Typed ⟨m₁, s.declared⟩ ∧
      m₁ (site.reg dest) = s.memory (site.reg src) ∧
      execAll vm site ans s.memory (emit (.declare dest src mask inferred)) =
        execAll vm site ans m₁ (emitCheckUnlessInferred dest mask inferred) := by
    by_cases hne : dest ≠ src
    · refine ⟨Function.update s.memory (site.reg dest) (s.memory (site.reg src)),
        (typed_update_temp hdest).2 hs, Function.update_self _ _ _, ?_⟩
      rw [emit, if_pos hne, List.singleton_append, execAll, exec]
    · refine ⟨s.memory, hs, ?_, ?_⟩
      · rw [not_not.1 hne]
      · rw [emit, if_neg hne, List.nil_append]
  rw [step_write, hcode]
  unfold emitCheckUnlessInferred
  cases checkInferredType mask inferred with
  | true =>
    -- the check is left out
    refine (typed_declare h₁).trans ?_
    rw [hread]
    exact ⟨fun h _ => fits_some.2 h, fun h => fits_some.1 (h rfl)⟩
  | false =>
    refine iff_of_true ?_ (fun h => nomatch h)
    have hcheck := execAll_check_append vm site ans m₁ hlt mask []
    rw [List.append_nil] at hcheck
    rw [if_neg (by decide), hcheck]
    by_cases hfit : checkTypemask (m₁ (site.reg dest)) mask = true
    · rw [if_pos hfit]
      exact (typed_declare h₁).2 hfit
    · rw [if_neg hfit]
      exact h₁

/-- A write leaves the variables typed exactly if it meets its condition. -/
theorem write_typed_iff (hs : s.Typed) {w : Write} (hw : w.Allocated site s.declared) :
    (s.step vm (.write site ans w)).Typed ↔ w.Meets vm site ans s := by
  cases w with
  | declare dest src mask inferred => exact declare_typed hs hw.1 hw.2
  | declareNull dest mask =>
    refine (typed_declare ((typed_update_temp hw).2 hs)).trans ?_
    rw [Function.update_self]
    exact fits_some.symm
  -- a field is checked when the access gives a value; a missing one leaves the register as it is
  | field target src mask hasDefault =>
    rw [step_write_of_declares_none vm site ans rfl, emit, execAll, exec]
    show _ ↔ Fits ans.get.value mask
    cases ans.get with
    | slot o =>
      dsimp only
      rw [execAll_check]
      exact (typed_update_var hs hw).trans fits_some.symm
    | missing =>
      refine iff_of_true ?_ fits_none
      cases hasDefault with
      | false => exact hs
      | true => rwa [if_pos rfl, execAll_check]
    | raised => exact iff_of_true hs fits_none
  -- a variable of the function is a register, one of an outer function a write through the outer
  | assign var src target mask inferred =>
    obtain ⟨hvar, htarget, -⟩ := hw
    rw [step_write_of_declares_none vm site ans rfl]
    cases var with
    | localVar dst =>
      rw [emit, execAll, exec]
      dsimp only
      rw [execAll_checkUnlessInferred]
      exact (typed_update_var hs hvar).trans fits_some.symm
    | outer pos =>
      obtain ⟨m, hm, htyped⟩ := @typed_setouter vm site ans _ _ target pos src _ hs hvar htarget
      rw [emit, execAll, hm]
      dsimp only
      rw [execAll_checkUnlessInferred]
      exact htyped.trans fits_some.symm
  -- in a register the result is stored and then checked, for an outer it is checked first
  | compoundArith op var val tmp target mask =>
    obtain ⟨hvar, htmp, htarget, hlt⟩ := hw
    rw [step_write_of_declares_none vm site ans rfl]
    cases var with
    | localVar p1 =>
      rw [emit, execAll, exec]
      show _ ↔ Fits (arith vm ans op (s.memory (site.reg p1)) (s.memory (site.reg val))) mask
      cases arith vm ans op (s.memory (site.reg p1)) (s.memory (site.reg val)) with
      | none => exact iff_of_true hs fits_none
      | some o =>
        dsimp only
        rw [execAll_check]
        exact (typed_update_var hs hvar).trans fits_some.symm
    | outer pos => exact iff_of_true (compoundArith_outer_typed hs hvar htmp htarget hlt) trivial
  | inc isPostfix var tmp1 tmp2 diff =>
    obtain ⟨⟨mask, hvar⟩, htmp1, htmp2⟩ := hw
    rw [step_write_of_declares_none vm site ans rfl]
    -- the declared mask of the variable is the only one that the write has to meet
    have hmeets : Write.Meets vm site ans s (.inc isPostfix var tmp1 tmp2 diff) ↔
        Fits (increment vm ans diff (s.memory (site.addr var))) mask := by
      constructor
      · intro h
        exact h mask hvar
      · intro h mask' hmask
        rw [hvar] at hmask
        cases hmask
        exact h
    rw [hmeets]
    cases var with
    | localVar pos => exact inc_localVar_typed hs hvar htmp1
    | outer pos =>
      cases isPostfix with
      | false => exact inc_outer_typed hs hvar htmp1 htmp1
      | true => exact inc_outer_typed hs hvar htmp1 htmp2

end Write

/-! ## A run -/

section Run

theorem step_typed {s : Machine} {st : Step} (hs : s.Typed) (hvalid : st.Valid s)
    (hmeets : st.Meets vm s) : (s.step vm st).Typed := by
  cases st with
  | write site ans w => exact (write_typed_iff hs hvalid).2 hmeets
  | store a o => exact (typed_update_temp hvalid).2 hs
  | bind a mask o =>
    show Machine.Typed (if checkTypemask o mask then _ else s)
    split
    · next hfit =>
      refine (typed_declare ((typed_update_temp hvalid).2 hs)).2 ?_
      rwa [Function.update_self]
    · exact hs
  | leave out =>
    intro a mask ha
    cases hout : out a with
    | true => simp [Machine.step, hout] at ha
    | false => exact hs a mask (by simpa [Machine.step, hout] using ha)
  | move a b =>
    obtain ⟨hb, hne⟩ := hvalid
    -- the register moved to takes over declaration and value
    intro x mask hx
    by_cases hxa : x = a
    · subst hxa
      simp [Machine.step] at hx
    · by_cases hxb : x = b
      · subst hxb
        have hdecl : s.declared a = some mask := by simpa [Machine.step, hxa] using hx
        show checkTypemask (Function.update s.memory x (s.memory a) x) mask = true
        rw [Function.update_self]
        exact hs a mask hdecl
      · have hdecl : s.declared x = some mask := by simpa [Machine.step, hxa, hxb] using hx
        show checkTypemask (Function.update s.memory b (s.memory a) x) mask = true
        rw [Function.update_of_ne hxb]
        exact hs x mask hdecl
  | unwind out captured ex err =>
    intro b mask hb
    -- a register that is still declared was not left by the unwinding
    have hstay : s.declared b = some mask ∧ out b = false := by
      cases hout : out b with
      | true =>
        have hcap : captured b = false := hmeets b
        simp [Machine.step, hout, hcap] at hb
      | false => exact ⟨by simpa [Machine.step, hout] using hb, rfl⟩
    have hne : b ≠ ex := by
      rintro rfl
      rcases hvalid with hnone | hout
      · rw [hstay.1] at hnone
        cases hnone
      · rw [hstay.2] at hout
        cases hout
    show checkTypemask (Function.update s.memory ex err b) mask = true
    rw [Function.update_of_ne hne]
    exact hs b mask hstay.1

/-- The states in which script code can read its variables, in a run of compiled code from the start,
where no variable is declared. `C` restricts the steps. -/
def Reached (C : Machine → Step → Prop) (memory : Memory) : Machine → Prop :=
  Relation.ReflTransGen (fun s s' => ∃ st : Step, st.Valid s ∧ C s st ∧ s' = s.step vm st)
    ⟨memory, fun _ => none⟩

theorem reached_typed {memory : Memory} {s : Machine}
    (h : Reached vm (fun s st => st.Meets vm s) memory s) : s.Typed := by
  induction h with
  | refl => exact fun _ _ h => nomatch h
  | tail _ hstep ih =>
    obtain ⟨st, hvalid, hmeets, rfl⟩ := hstep
    exact step_typed vm ih hvalid hmeets

/-- The variables are typed in every state of a run whose steps meet their conditions, and a write in
such a state keeps them typed exactly if it meets its condition. -/
theorem typed_locals {memory : Memory} {s : Machine}
    (h : Reached vm (fun s st => st.Meets vm s) memory s) :
    s.Typed ∧ ∀ site ans (w : Write), w.Allocated site s.declared →
      ((s.step vm (.write site ans w)).Typed ↔ w.Meets vm site ans s) := by
  have hs := reached_typed vm h
  refine ⟨hs, ?_⟩
  intro site ans w hw
  exact write_typed_iff hs hw

end Run

/-! ## A failed check in a `try` block -/

/-- `_RT_INTEGER` -/
def intMask : TypeMask := 0x00000002#32

/-- Arithmetic without metamethods. -/
def plainOps : VmOps :=
  ⟨fun _ _ _ => none, fun _ => .ok [], fun f _ => f⟩

/-- The registers and boxes of one frame. -/
def mainSite : Site := ⟨Addr.slot, Addr.box⟩

/-- No metamethod and no slot to be found. -/
def noAnswers : Answers := ⟨none, .missing⟩

/-- `local x: int = 1`, in register 1. -/
def declareX : Step :=
  .write mainSite noAnswers (.declare 1 1 intMask intMask)

/-- `x = f()` with the result of `f` in register 2. -/
def assignX : Step :=
  .write mainSite noAnswers (.assign (.localVar 1) 2 2 intMask anyMask)

/-- The state after the declaration of `x` as an integer. -/
def afterDeclareX : Machine :=
  ⟨Function.update (fun _ => .null) (.slot 1) (.integer 1),
    Function.update (fun _ => none) (.slot 1) (some intMask)⟩

theorem reached_declareX (C : Machine → Step → Prop)
    (hstore : C ⟨fun _ => .null, fun _ => none⟩ (.store (.slot 1) (.integer 1)))
    (hdeclare : C ⟨Function.update (fun _ => .null) (.slot 1) (.integer 1), fun _ => none⟩
      declareX) : Reached plainOps C (fun _ => .null) afterDeclareX := by
  apply Relation.ReflTransGen.tail
  · apply Relation.ReflTransGen.single
    exact ⟨.store (.slot 1) (.integer 1), rfl, hstore, rfl⟩
  · exact ⟨declareX, ⟨rfl, by decide⟩, hdeclare, rfl⟩

/-- After `local x: int = 1` the condition decides about `x = 2`. -/
theorem typed_locals_declareX :
    afterDeclareX.Typed ∧ ∀ site ans (w : Write), w.Allocated site afterDeclareX.declared →
      ((afterDeclareX.step plainOps (.write site ans w)).Typed ↔
        w.Meets plainOps site ans afterDeclareX) := by
  refine @typed_locals plainOps (fun _ => .null) afterDeclareX ?_
  apply reached_declareX
  · trivial
  · intro _ v hv
    cases hv
    decide

/-- `local x: int = 1; try { x = f() } catch (e) {}`, where `f` returns a string: the handler reads
the string in `x`. -/
theorem handler_reads_mistyped_value :
    ∃ s, Reached plainOps (fun _ _ => True) (fun _ => .null) s ∧
      s.declared (.slot 1) = some intMask ∧ s.memory (.slot 1) = .string (asciiBytes "a") ∧
      ¬ s.Typed := by
  have hx := reached_declareX (fun _ _ => True) trivial trivial
  have hf : Reached plainOps (fun _ _ => True) (fun _ => .null)
      (afterDeclareX.step plainOps (.store (.slot 2) (.string (asciiBytes "a")))) :=
    hx.tail ⟨.store (.slot 2) (.string (asciiBytes "a")), rfl, trivial, rfl⟩
  have hassign := Relation.ReflTransGen.tail hf
    ⟨assignX, ⟨rfl, rfl, by decide⟩, trivial, rfl⟩
  refine ⟨_, hassign.tail ⟨.unwind (fun _ => false) (fun _ => false) (.slot 2) .null, Or.inl rfl,
    trivial, rfl⟩, rfl, rfl, ?_⟩
  intro h
  have hbad := h (.slot 1) intMask rfl
  exact absurd hbad (by decide)

end Quirrel.TypedLocals
