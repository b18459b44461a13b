import Quirrel.Vm.Agree
import Quirrel.Compiler.AddInstruction

/-!
# What the peephole optimizer preserves

Each merge is compared with the two instructions that it replaces (`peephole_agrees`). A merge loses
the register that the previous instruction would have written, so the register must not be read
again; and a jump that is merged with a comparison must be the test of that comparison, which
`AddInstruction` does not check.
-/

set_option autoImplicit false

namespace Quirrel.Compiler

open Quirrel.Vm

variable {G : Type}

/-! ## When a merge is right -/

section Sound

variable (vm : VmServices G)

/-- The registers that may be captured after an instruction; after `_OP_RETURN` nothing runs. -/
def capturedStep (S : Set Nat) (i : SQInstruction) : Set Nat :=
  match i.op with
  | .close => {r | r ∈ S ∧ r < i.arg1.toNat}
  | .return => ∅
  | .other _ => S ∪ {r | r ∈ vm.captures i}
  | _ => S

/-- The register `t` is not needed after `i`, unless `i` itself writes it, and no open outer is at
it. -/
structure Dies (S : Set Nat) (t : Nat) (i : Emitted) : Prop where
  free : t ∉ S
  dead : t ∈ i.live → t ∈ defines vm i.instr

/-- The registers that `i` reads beside the one that holds its key. -/
def otherOperands (i : SQInstruction) : List Nat :=
  match i.op with
  | .set | .newslot => [i.arg2, i.arg3]
  | .get | .prepcall | .eq | .ne => [i.arg2]
  | .appendarray => [i.arg0]
  | _ => []

/-- The loaded value is used as the key and for nothing else. -/
structure KeySound (S : Set Nat) (pi i : Emitted) : Prop where
  dies : Dies vm S pi.instr.arg0 i
  other : pi.instr.arg0 ∉ otherOperands i.instr
  onError : ∀ E, i.onError = some E → pi.instr.arg0 ∉ E
  stack : i.instr.op = .appendarray → i.instr.arg2 = AppendArrayType.stack.code
  register : i.instr.op = .eq ∨ i.instr.op = .ne → i.instr.arg3 = 0

/-- A three-way result is zero in 32 bits only if it is zero. -/
def CmpFits (op : Nat) : Prop :=
  op = cmpG ∨ op = cmpGE ∨ op = cmpL ∨ op = cmpLE ∨
    ∀ a b s s' r, vm.objCmp a b s = (s', .ok r) → r.setWidth 32 = 0 → r = 0

/-- The jump tests the comparison, and nothing else reads its result. -/
structure JumpSound (S : Set Nat) (pi i : Emitted) : Prop where
  tests : i.instr.arg0 = pi.instr.arg0
  dies : Dies vm S pi.instr.arg0 i
  onJump : pi.instr.arg0 ∉ i.onJump
  fits : CmpFits vm pi.instr.arg3
  negation : i.instr.arg2 ≤ 1
  operand : 0 ≤ pi.instr.arg1
  cmpOp : pi.instr.arg3 < 8

/-- A failing operator leaves its target alone, or the target of the move is not seen either. -/
def FailsClean (S : Set Nat) (pi i : Emitted) : Prop :=
  (∀ op a1 a3 vals s s' e w, vm.value op a1 a3 vals s = (s', .error e w) → w = none) ∨
    i.instr.arg0 ∉ S ∧ ∀ E, pi.onError = some E → i.instr.arg0 ∉ E ∧ pi.instr.arg0 ∉ E

/-- The result goes to the target of the move and nowhere else. -/
structure RetargetSound (S : Set Nat) (pi i : Emitted) : Prop where
  dies : Dies vm S pi.instr.arg0 i
  sets : pi.instr.op = .get ∨ pi.instr.op = .getk → ¬ keepsTarget pi.instr.arg3
  fails : (∃ op, pi.instr.op = .value op) → FailsClean vm S pi i

/-- What is returned is the result of the call, and no trap of the frame sees its errors. -/
structure TailcallSound (S : Set Nat) (pi i : Emitted) : Prop where
  result : i.instr.arg1 = pi.instr.arg0
  target : pi.instr.arg0 ≠ maxFuncStacksize
  free : pi.instr.arg0 ∉ S
  noTrap : pi.onError = none

/-- The condition on `pi` and `i`, where `S` are the registers that may be captured. -/
def MergeSound (fs : FuncState) (S : Set Nat) (pi i : Emitted) : Prop :=
  match i.instr.op with
  | .jz => pi.instr.op = .cmp → pi.instr.arg1 < 0xFF → JumpSound vm S pi i
  | .return => fs.makesTailcall pi.instr i.instr = true → TailcallSound S pi i
  | .move => 0 ≤ i.instr.arg1 ∧
      (isRetargetable pi.instr.op = true → fs.consumes pi.instr i.instr = true →
        RetargetSound vm S pi i)
  | .load => 0 ≤ i.instr.arg1
  | .loadnulls => pi.instr.op = .loadnulls → i.instr.arg1 = 1 ∧ 0 ≤ pi.instr.arg1
  | _ => fs.consumes pi.instr i.instr = true →
      (fs.mergeKey pi.instr i.instr).isSome = true → KeySound vm S pi i

end Sound

/-! ## Merges that change nothing -/

section Merge

variable {vm : VmServices G} {lits : List SQObject} {fs : FuncState} {pi i : Emitted} {S : Set Nat}
  {m : Machine G}

/-- Two instructions, one after the other. -/
theorem runCode_pair (pi i : Emitted) (m : Machine G) :
    runCode vm lits [pi, i] m = (exec vm lits pi m).andThen (exec vm lits i) := by
  rw [show [pi, i] = [pi] ++ [i] from rfl, runCode_append, runCode_singleton]
  congr 1
  funext m'
  exact runCode_singleton i m'

/-- Assigning a register to itself is no assignment. -/
theorem copyTarget_self (m : Machine G) (r : Nat) :
    m.copyTarget r r = m.copyTarget maxFuncStacksize r := by
  simp [Machine.copyTarget, Machine.write_read_self]

theorem exec_dropSelfTarget (i : Emitted) (m : Machine G) :
    exec vm lits { i with instr := dropSelfTarget i.instr } m = exec vm lits i m := by
  obtain ⟨⟨op, arg0, arg1, arg2, arg3⟩, live, onError, onJump⟩ := i
  have hstore : ∀ (res : Store G × Option SQObject) (j : Emitted), j.instr.arg0 = j.instr.arg3 →
      execStore { j with instr := { j.instr with arg0 := maxFuncStacksize } } m res =
        execStore j m res := by
    intro res j hj
    obtain ⟨s, _ | e⟩ := res
    · simp [execStore, hj, copyTarget_self]
    · rfl
  cases op with
  | set | newslot | seti | setk | newslotk =>
    simp only [dropSelfTarget]
    split_ifs with h
    · exact hstore _ ⟨⟨_, arg0, arg1, arg2, arg3⟩, live, onError, onJump⟩ h
    · rfl
  | setouter =>
    simp only [dropSelfTarget]
    split_ifs with h
    · simp only [exec, h, copyTarget_self]
    · rfl
  | _ => rfl

theorem uchar_of_lt {a : Int} (h0 : 0 ≤ a) (h : a < 256) : uchar a = a.toNat := by
  unfold uchar
  rw [Int.emod_eq_of_lt h0 h]

/-- `_OP_GETOUTER` or `_OP_LOADCALLEE` with the move that follows it. -/
theorem secondMove_agrees (hpi : takesSecondMove pi.instr.op = true) (hi : i.instr.op = .move)
    (h0 : 0 ≤ i.instr.arg1) (h1 : i.instr.arg1 < 256) (harg0 : i.instr.arg0 ≠ 0)
    (harg2 : pi.instr.arg2 = 0) (m : Machine G) :
    runCode vm lits [pi, i] m = exec vm lits
      { i with instr := { pi.instr with arg2 := i.instr.arg0, arg3 := uchar i.instr.arg1 } } m := by
  rw [runCode_pair, uchar_of_lt h0 h1]
  cases hop : pi.instr.op with
  | getouter => simp [exec, hop, hi, harg0, harg2, Outcome.andThen]
  | loadcallee => simp [exec, hop, hi, harg0, harg2, Outcome.andThen]
  | _ => simp [takesSecondMove, hop] at hpi

/-- Two moves. -/
theorem dmove_agrees (hpi : pi.instr.op = .move) (hi : i.instr.op = .move) (h0 : 0 ≤ i.instr.arg1)
    (h1 : i.instr.arg1 < 256) (m : Machine G) :
    runCode vm lits [pi, i] m = exec vm lits { i with instr :=
      { pi.instr with op := .dmove, arg2 := i.instr.arg0, arg3 := uchar i.instr.arg1 } } m := by
  rw [runCode_pair, uchar_of_lt h0 h1]
  simp [exec, hpi, hi, Outcome.andThen]

/-- Two literals. -/
theorem dload_agrees (hpi : pi.instr.op = .load) (hi : i.instr.op = .load) (h0 : 0 ≤ i.instr.arg1)
    (h1 : i.instr.arg1 < 256) (m : Machine G) :
    runCode vm lits [pi, i] m = exec vm lits { i with instr :=
      { pi.instr with op := .dload, arg2 := i.instr.arg0, arg3 := uchar i.instr.arg1 } } m := by
  rw [runCode_pair, uchar_of_lt h0 h1]
  have hw : ∀ m : Machine G, m.withStore m.store = m := fun _ => rfl
  simp [exec, hpi, hi, Outcome.andThen, compute, assignTarget, literal, hw,
    Int.toNat_of_nonneg h0]

/-- One more register is set to `null`. -/
theorem loadnulls_agrees (hpi : pi.instr.op = .loadnulls) (hi : i.instr.op = .loadnulls)
    (hnext : pi.instr.arg0 + pi.instr.arg1 = i.instr.arg0) (hone : i.instr.arg1 = 1)
    (h0 : 0 ≤ pi.instr.arg1) (m : Machine G) :
    runCode vm lits [pi, i] m =
      exec vm lits { i with instr := { pi.instr with arg1 := pi.instr.arg1 + 1 } } m := by
  have hrange : ∀ op arg2 arg3, nullRange ⟨op, pi.instr.arg0, pi.instr.arg1 + 1, arg2, arg3⟩ =
      nullRange pi.instr ++ nullRange i.instr := by
    intro op arg2 arg3
    have hn : (pi.instr.arg1 + 1).toNat = pi.instr.arg1.toNat + 1 := by omega
    have hi0 : i.instr.arg0 = pi.instr.arg0 + pi.instr.arg1.toNat := by omega
    simp [nullRange, hn, hone, hi0, List.range_succ]
  rw [runCode_pair]
  simp [exec, hpi, hi, Outcome.andThen, hrange, Machine.writeAll]

/-- `_OP_RETURN` closes the outers of the frame in any case. -/
theorem return_close_agrees (hpi : pi.instr.op = .close) (hi : i.instr.op = .return)
    (m : Machine G) : runCode vm lits [pi, i] m = exec vm lits i m := by
  have hs : ∀ n, (m.closeOuters n).store = m.store := fun _ => rfl
  rw [runCode_pair]
  simp [exec, hpi, hi, Outcome.andThen, hs]

/-! ## Merges that lose a register -/

/-- The value that a load puts into its target. -/
def loadedValue (lits : List SQObject) (i : SQInstruction) : SQObject :=
  match i.op with
  | .load => literal lits i.arg1
  | .loadint => .integer (BitVec.ofInt 64 i.arg1)
  | .loadfloat => farg i.arg1
  | _ => .bool (i.arg1 != 0)

/-- The instructions that load a constant. -/
def isLoad : Opcode → Bool
  | .load | .loadint | .loadfloat | .loadbool => true
  | _ => false

/-- A load writes its constant. -/
theorem exec_load (hpi : isLoad pi.instr.op = true) (m : Machine G) :
    exec vm lits pi m = .next (m.write pi.instr.arg0 (loadedValue lits pi.instr)) := by
  have hw : m.withStore m.store = m := rfl
  cases h : pi.instr.op with
  | load | loadint | loadfloat | loadbool =>
    simp [exec, h, compute, assignTarget, loadedValue, hw]
  | _ => simp [isLoad, h] at hpi

/-- A literal that was added is read back. -/
theorem literal_getConstant {literals : List SQObject} {v : SQObject}
    (hlits : (getConstant literals v).1 <+: lits) : literal lits (getConstant literals v).2 = v := by
  obtain ⟨tail, rfl⟩ := hlits
  unfold getConstant literal
  split_ifs with h
  · have hlt := List.idxOf_lt_length_of_mem h
    simp [List.getD_eq_getElem?_getD, List.getElem?_append_left hlt, List.getElem?_eq_getElem hlt]
  · simp [List.getD_eq_getElem?_getD]

/-- The literal is the value that the register would have held. -/
theorem mergeKey_exec {literals : List SQObject} {instr : SQInstruction}
    (hk : fs.mergeKey pi.instr i.instr = some (literals, instr)) (hlits : literals <+: lits)
    (hread : m.read i.instr.arg1.toNat = loadedValue lits pi.instr)
    (hstack : i.instr.op = .appendarray → i.instr.arg2 = AppendArrayType.stack.code)
    (hreg : i.instr.op = .eq ∨ i.instr.op = .ne → i.instr.arg3 = 0) :
    exec vm lits { i with instr := instr } m = exec vm lits i m := by
  unfold FuncState.mergeKey at hk
  split at hk
  all_goals
    rename_i hi hpi
    try
      simp only [Option.some.injEq, Prod.mk.injEq, FuncState.literalKey, FuncState.constantKey,
        FuncState.appendKey] at hk
      obtain ⟨rfl, rfl⟩ := hk
  -- Where the key was no literal before, it is one in the table that `getConstant` returns.
  case h_4 | h_6 =>
    simp only [exec, compute, hi, hread, loadedValue, hpi, literal_getConstant hlits]
    rfl
  case h_1 | h_2 | h_3 | h_5 | h_7 =>
    simp only [exec, compute, hi, hread, loadedValue, hpi]
    rfl
  case h_8 | h_9 | h_10 | h_11 =>
    simp [exec, hi, hread, loadedValue, hpi, appendValue, hstack hi, AppendArrayType.code]
  case h_12 | h_13 =>
    simp [exec, compute, hi, hread, loadedValue, hpi, condLiteral, hreg (by simp [hi])]
    rfl
  case h_14 | h_15 | h_16 | h_17 | h_18 | h_19 =>
    simp [exec, compute, hi, hread, loadedValue, hpi, condLiteral, hreg (by simp [hi]),
      literal_getConstant hlits]
    rfl
  case h_20 => cases hk

/-- A merged instruction reads what the second one read beside the key. -/
theorem mergeKey_uses {literals : List SQObject} {instr : SQInstruction}
    (hk : fs.mergeKey pi.instr i.instr = some (literals, instr)) :
    uses vm instr = otherOperands i.instr := by
  unfold FuncState.mergeKey at hk
  split at hk
  all_goals
    rename_i hi hpi
    try
      simp only [Option.some.injEq, Prod.mk.injEq, FuncState.literalKey, FuncState.constantKey,
        FuncState.appendKey] at hk
      obtain ⟨rfl, rfl⟩ := hk
  case h_20 => cases hk
  all_goals simp [uses, otherOperands, hi, AppendArrayType.code]

/-- A merged instruction writes what the second one wrote. -/
theorem mergeKey_defines {literals : List SQObject} {instr : SQInstruction}
    (hk : fs.mergeKey pi.instr i.instr = some (literals, instr)) :
    defines vm instr = defines vm i.instr := by
  unfold FuncState.mergeKey at hk
  split at hk
  all_goals
    rename_i hi hpi
    try
      simp only [Option.some.injEq, Prod.mk.injEq, FuncState.literalKey, FuncState.constantKey,
        FuncState.appendKey] at hk
      obtain ⟨rfl, rfl⟩ := hk
  case h_20 => cases hk
  all_goals simp [defines, hi]

variable (vm) in
/-- What a merge of a key is made of. -/
theorem mergeKey_ops {literals : List SQObject} {instr : SQInstruction}
    (hk : fs.mergeKey pi.instr i.instr = some (literals, instr)) :
    isLoad pi.instr.op = true ∧ jumps instr.op = false ∧
      ∀ S, capturedStep vm S instr = S ∧ capturedStep vm S i.instr = S := by
  unfold FuncState.mergeKey at hk
  split at hk
  all_goals
    rename_i hi hpi
    try
      simp only [Option.some.injEq, Prod.mk.injEq, FuncState.literalKey, FuncState.constantKey,
        FuncState.appendKey] at hk
      obtain ⟨rfl, rfl⟩ := hk
  case h_20 => cases hk
  all_goals simp [hpi, hi, isLoad, jumps, capturedStep]

theorem literals_getConstant (literals : List SQObject) (v : SQObject) :
    literals <+: (getConstant literals v).1 := by
  unfold getConstant
  split_ifs
  · exact List.prefix_refl _
  · exact List.prefix_append _ _

/-- A merge only adds literals. -/
theorem mergeKey_literals {literals : List SQObject} {instr : SQInstruction}
    (hk : fs.mergeKey pi.instr i.instr = some (literals, instr)) : fs.literals <+: literals := by
  unfold FuncState.mergeKey at hk
  split at hk
  all_goals
    try
      simp only [Option.some.injEq, Prod.mk.injEq, FuncState.literalKey, FuncState.constantKey,
        FuncState.appendKey] at hk
      obtain ⟨rfl, rfl⟩ := hk
  case h_20 => cases hk
  all_goals simp [literals_getConstant]

/-- The second instruction consumes a temporary of the first. -/
theorem consumes_iff :
    fs.consumes pi.instr i.instr = true ↔
      (pi.instr.arg0 : Int) = i.instr.arg1 ∧ fs.isLocal pi.instr.arg0 = false := by
  simp [FuncState.consumes]

/-- A free register is all that a write to it changes. -/
theorem agree_write_free {t : Nat} (ht : m.captured t = none) (v : SQObject) :
    Agree {r | r ≠ t} (m.write t v) m :=
  ⟨Machine.write_store_of_free ht v, Machine.write_captured m t v, fun _ hr =>
    Machine.read_write_of_ne ht hr v⟩

/-- A load merged into the key of the next instruction. -/
theorem key_agrees {literals : List SQObject} {instr : SQInstruction}
    (hk : fs.mergeKey pi.instr i.instr = some (literals, instr)) (hlits : literals <+: lits)
    (hc : fs.consumes pi.instr i.instr = true) (hs : KeySound vm S pi i)
    (hfree : m.captured pi.instr.arg0 = none) :
    Related i.live (runCode vm lits [pi, i] m) (exec vm lits { i with instr := instr } m) := by
  obtain ⟨hload, hjumps, -⟩ := mergeKey_ops vm hk
  have harg : i.instr.arg1.toNat = pi.instr.arg0 := by
    have := (consumes_iff.1 hc).1
    omega
  rw [runCode_pair, exec_load hload]
  simp only [Outcome.andThen]
  rw [← mergeKey_exec hk hlits (by rw [harg, Machine.read_write_self]) hs.stack hs.register]
  refine exec_agree (i := { i with instr := instr }) (agree_write_free hfree _)
    ⟨fun r hr => ?_, fun r hr => ?_, ?_, ?_⟩
  · rw [mergeKey_uses hk] at hr
    exact fun h => hs.other (h ▸ hr)
  · by_cases h : r = pi.instr.arg0
    · refine .inr ?_
      rw [mergeKey_defines hk, h]
      exact hs.dies.dead (h ▸ hr)
    · exact .inl h
  · exact fun E hE r hr h => hs.onError E hE (h ▸ hr)
  · intro h
    simp [hjumps] at h

/-! ### The move of a result -/

/-- The target does not matter to what is computed. -/
theorem compute_retarget (i : SQInstruction) (a : Nat) (m : Machine G) :
    compute vm lits { i with arg0 := a } m = compute vm lits i m := by
  obtain ⟨op, arg0, arg1, arg2, arg3⟩ := i
  cases op with
  | value op => cases op <;> rfl
  | _ => rfl

/-- Only a read that may keep its target does. -/
theorem compute_keep {i : SQInstruction} {s : Store G}
    (h : compute vm lits i m = some (.keep s)) :
    (i.op = .get ∨ i.op = .getk) ∧ keepsTarget i.arg3 := by
  by_contra hn
  have hd : i.arg0 ∈ defines vm i := by
    cases hi : i.op with
    | get | getk => simpa [defines, hi] using hn
    | value op =>
      simp only [compute, hi] at h
      split at h
      all_goals cases h
    | cmp =>
      simp only [compute, hi] at h
      split at h
      all_goals cases h
    | _ => simp [compute, hi] at h
  exact (compute_defines h hd).2 s rfl

theorem compute_fail {i : SQInstruction} {s : Store G} {e w : SQObject}
    (h : compute vm lits i m = some (.fail s e (some w))) :
    (∃ op, i.op = .value op) ∧ ∃ op a1 a3 vals s', vm.value op a1 a3 vals s' = (s, .error e (some w)) := by
  cases hi : i.op with
  | value op =>
    simp only [compute, hi] at h
    split at h
    · cases h
    · next heq =>
      cases h
      exact ⟨⟨op, rfl⟩, op, _, _, _, _, heq⟩
  | cmp =>
    simp only [compute, hi] at h
    split at h <;> cases h
  | get | getk =>
    simp only [compute, hi, computeGet, Option.some.injEq] at h
    split at h
    · cases h
    · cases h
    · split_ifs at h
      cases h
  | _ => simp [compute, hi] at h

/-- A computation whose result is moved at once. -/
theorem retarget_agrees (hpi : isRetargetable pi.instr.op = true) (hi : i.instr.op = .move)
    (hc : fs.consumes pi.instr i.instr = true) (hs : RetargetSound vm S pi i)
    (hcap : ∀ r, m.captured r ≠ none → r ∈ S) :
    Related i.live (runCode vm lits [pi, i] m) (exec vm lits
      { i with instr := { pi.instr with arg0 := i.instr.arg0 }, onError := pi.onError } m) := by
  have harg : i.instr.arg1.toNat = pi.instr.arg0 := by
    have := (consumes_iff.1 hc).1
    omega
  have hcomp : isComputing pi.instr.op = true := by
    revert hpi
    cases pi.instr.op <;> first | exact fun _ => rfl | exact nofun
  obtain ⟨c, hcv, hexec⟩ := exec_computing vm lits hcomp m
  obtain ⟨c', hcv', hexec'⟩ := exec_computing vm lits
    (i := { i with instr := { pi.instr with arg0 := i.instr.arg0 }, onError := pi.onError }) hcomp m
  obtain rfl : c = c' := by
    rw [compute_retarget, hcv] at hcv'
    exact Option.some.inj hcv'
  rw [runCode_pair, hexec, hexec']
  have hfree : ∀ s, (m.withStore s).captured pi.instr.arg0 = none := fun s =>
    not_not.1 fun h => hs.dies.free (hcap _ h)
  cases c with
  | value s v =>
    have hw := (agree_write_free (hfree s) v).write i.instr.arg0 v
    simp only [assignTarget, Outcome.andThen, exec, hi, harg, Machine.read_write_self]
    refine .next (hw.mono fun r hr => ?_)
    by_cases h : r = pi.instr.arg0
    · have := hs.dies.dead (h ▸ hr)
      simp only [defines, hi, List.mem_singleton] at this
      exact .inl (h.trans this)
    · exact .inr h
  | keep s =>
    obtain ⟨hop, hkeep⟩ := compute_keep hcv
    exact absurd hkeep (hs.sets hop)
  | fail s e written =>
    cases written with
    | none => exact Related.refl _ _
    | some w =>
      obtain ⟨hop, op, a1, a3, vals, s', heq⟩ := compute_fail hcv
      -- Only an operator can have written its target before it failed.
      rcases hs.fails hop with h | ⟨hl, hE⟩
      · cases h op a1 a3 vals s' s e _ heq
      · have hfree' : (m.withStore s).captured i.instr.arg0 = none :=
          not_not.1 fun h => hl (hcap _ h)
        simp only [assignTarget, Outcome.andThen, Machine.writeOpt]
        have hstore : ((m.withStore s).write pi.instr.arg0 w).store =
            ((m.withStore s).write i.instr.arg0 w).store := by
          rw [Machine.write_store_of_free (hfree s), Machine.write_store_of_free hfree']
        refine .error hstore fun E h => ⟨hstore, ?_, fun r hr => ?_⟩
        · rw [Machine.write_captured, Machine.write_captured]
        · obtain ⟨h1, h2⟩ := hE E h
          rw [Machine.read_write_of_ne (hfree s) fun h => h2 (h ▸ hr),
            Machine.read_write_of_ne hfree' fun h => h1 (h ▸ hr)]

/-! ### The jump on a comparison -/

/-- A comparison that is tested gives the same truth value. -/
theorem isFalse_cmpOp {op : Nat} {a b : SQObject} {s s' : Store G} {r : SQInteger}
    (hfit : CmpFits vm op) (h : vm.objCmp a b s = (s', .ok r)) :
    isFalse (cmpOp op r) = !cmpOpRes op r := by
  unfold cmpOp cmpOpRes
  split_ifs with h1 h2 h3 h4
  all_goals try rfl
  have hz : r.setWidth 32 = 0 ↔ r = 0 := by
    constructor
    · rcases hfit with h | h | h | h | hfit
      · exact absurd h h1
      · exact absurd h h2
      · exact absurd h h3
      · exact absurd h h4
      · exact hfit a b s s' r ‹_›
    · rintro rfl
      rfl
  by_cases hr : r = 0
  · simp [Vm.isFalse, hr]
  · have hn : ¬ r.setWidth 32 = 0 := fun h => hr (hz.1 h)
    simp only [Vm.isFalse, bne, Bool.not_not]
    rw [beq_eq_false_iff_ne.2 hr, beq_eq_false_iff_ne.2 hn]

/-- The two halves of the third argument of `_OP_JCMP`. -/
theorem fuseJump_arg3 {a b : Nat} (ha : a < 8) (hb : b ≤ 1) :
    (a ||| (if b ≠ 0 then 1 else 0) <<< 3) % 8 = a ∧
      (a ||| (if b ≠ 0 then 1 else 0) <<< 3) / 8 = b := by
  have key : ∀ a < 8, ∀ b < 2, (a ||| (if b ≠ 0 then 1 else 0) <<< 3) % 8 = a ∧
      (a ||| (if b ≠ 0 then 1 else 0) <<< 3) / 8 = b := by decide
  exact key a ha b (by omega)

/-- A comparison merged with the jump behind it. -/
theorem jump_agrees (hpi : pi.instr.op = .cmp) (hi : i.instr.op = .jz)
    (hlt : pi.instr.arg1 < 0xFF) (hs : JumpSound vm S pi i)
    (hfree : m.captured pi.instr.arg0 = none) :
    Related i.live (runCode vm lits [pi, i] m) (exec vm lits
      { i with instr := fuseJump pi.instr i.instr, onError := pi.onError } m) := by
  obtain ⟨hmod, hdiv⟩ := fuseJump_arg3 hs.cmpOp hs.negation
  have hreg : uchar pi.instr.arg1 = pi.instr.arg1.toNat :=
    uchar_of_lt hs.operand (by omega)
  rw [runCode_pair]
  simp only [exec, hpi, compute, fuseJump, hreg, hmod, hdiv]
  cases hres : vm.objCmp (m.read pi.instr.arg2) (m.read pi.instr.arg1.toNat) m.store with
  | mk s res =>
    cases res with
    | error e => exact Related.refl _ _
    | ok r =>
      have hf : (m.withStore s).captured pi.instr.arg0 = none := hfree
      have hag := agree_write_free hf (cmpOp pi.instr.arg3 r)
      have htest : (isFalse (cmpOp pi.instr.arg3 r)).toNat ≠ i.instr.arg2 ↔
          (cmpOpRes pi.instr.arg3 r).toNat = i.instr.arg2 := by
        rw [isFalse_cmpOp hs.fits hres]
        have := hs.negation
        cases cmpOpRes pi.instr.arg3 r <;> simp <;> omega
      simp only [assignTarget, Outcome.andThen, exec, hi, hs.tests, Machine.read_write_self]
      by_cases hj : (cmpOpRes pi.instr.arg3 r).toNat = i.instr.arg2
      · rw [if_pos (htest.2 hj), if_pos hj]
        exact .jump (hag.mono fun q hq h => hs.onJump (h ▸ hq))
      · rw [if_neg fun h => hj (htest.1 h), if_neg hj]
        refine .next (hag.mono fun q hq h => ?_)
        have := hs.dies.dead (h ▸ hq)
        simp [defines, hi] at this

/-! ### The call that is returned -/

/-- A call merged with the return behind it. -/
theorem tailcall_agrees (hpi : pi.instr.op = .call) (hi : i.instr.op = .return)
    (hret : i.instr.arg0 ≠ maxFuncStacksize) (hs : TailcallSound S pi i)
    (hfree : m.captured pi.instr.arg0 = none) :
    Related i.live (runCode vm lits [pi, i] m)
      (runCode vm lits [{ pi with instr := { pi.instr with op := .tailcall } }, i] m) := by
  have hcall : exec vm lits pi m = execCall vm pi m := by simp only [exec, hpi]
  have htail : exec vm lits { pi with instr := { pi.instr with op := .tailcall } } m =
      execTailcall vm pi m := rfl
  rw [runCode_pair, runCode_pair, hcall, htail]
  unfold execTailcall
  split_ifs
  · have hstore : (m.closeOuters 0).store = m.store := rfl
    unfold execCall
    rw [hstore]
    generalize vm.call (m.read pi.instr.arg1.toNat) (callArgs pi.instr m) m.store = res
    obtain ⟨s, clobbered, v | ⟨e, written⟩⟩ := res
    · have hf : ((m.withStore s).clobber pi.instr.arg2 clobbered).captured pi.instr.arg0 = none :=
        hfree
      simp only [hs.target, ne_eq, not_false_eq_true, if_true, Outcome.andThen, exec, hi, hret,
        hs.result, Int.toNat_natCast, Machine.read_write_self, Machine.write_store_of_free hf]
      exact .ret _ _
    · have hf : ((m.withStore s).clobber pi.instr.arg2 clobbered).captured pi.instr.arg0 = none :=
        hfree
      simp only [hs.target, ne_eq, not_false_eq_true, if_true, Outcome.andThen, hs.noTrap]
      refine .error ?_ fun _ h => by cases h
      cases written with
      | none => rfl
      | some w =>
        simp only [Machine.writeOpt, Machine.write_store_of_free hf]
        rfl
  · exact Related.refl _ _

/-! ## Every merge -/

/-- The instructions in the place of the last one and the new one. -/
def Merge.code : Merge → List Emitted
  | .into _ _ pi => [pi]
  | .push pi i => [pi, i]

/-- The literals after a merge. -/
def Merge.literals (fs : FuncState) : Merge → List SQObject
  | .into literals _ _ => literals
  | .push _ _ => fs.literals

/-- Where no open outer is at `t` after the previous instruction, none is there before it. -/
theorem free_of_capturedStep {t : Nat} (hcap : ∀ r, m.captured r ≠ none → r ∈ S)
    (hpi : ∀ S, capturedStep vm S pi.instr = S) (ht : t ∉ capturedStep vm S pi.instr) :
    m.captured t = none := by
  rw [hpi] at ht
  exact not_not.1 fun h => ht (hcap t h)

theorem runCode_pair_dropSelfTarget (pi i : Emitted) (m : Machine G) :
    runCode vm lits [pi, { i with instr := dropSelfTarget i.instr }] m =
      runCode vm lits [pi, i] m := by
  rw [runCode_pair, runCode_pair]
  congr 1
  funext m'
  exact exec_dropSelfTarget i m'

/-- What `AddInstruction` puts in the place of two instructions does the same as they do. -/
theorem peephole_agrees (hlits : (fs.peephole pi i).literals fs <+: lits)
    (hcap : ∀ r, m.captured r ≠ none → r ∈ S)
    (hs : MergeSound vm fs (capturedStep vm S pi.instr) pi
      { i with instr := dropSelfTarget i.instr }) :
    Related i.live (runCode vm lits [pi, i] m) (runCode vm lits (fs.peephole pi i).code m) := by
  -- A target that is the operand itself is dropped before the instructions are compared.
  rw [← runCode_pair_dropSelfTarget]
  unfold FuncState.peephole at hlits ⊢
  generalize hj : { i with instr := dropSelfTarget i.instr } = j at hs hlits ⊢
  have hlive : i.live = j.live := by rw [← hj]
  rw [hlive]
  unfold MergeSound at hs
  dsimp only at hlits ⊢
  -- One case for each second instruction: `_OP_JZ`, `_OP_RETURN`, `_OP_MOVE`, a load,
  -- `_OP_LOADNULLS`, and any that may take a key.
  split at hlits
  · next hop =>
    simp only [hop] at hs ⊢
    split_ifs with h
    · obtain ⟨hpi, hlt⟩ := h
      simp only [Merge.code, runCode_singleton]
      refine jump_agrees hpi hop hlt (hs hpi hlt) (free_of_capturedStep hcap ?_ (hs hpi hlt).dies.free)
      intro S
      simp only [capturedStep, hpi]
    · exact Related.refl _ _
  · next hop =>
    simp only [hop] at hs ⊢
    split_ifs with h h'
    · have hsound := hs h
      simp only [FuncState.makesTailcall, Bool.and_eq_true, decide_eq_true_eq] at h
      obtain ⟨⟨⟨-, hret⟩, hpi⟩, -⟩ := h
      refine tailcall_agrees hpi hop hret hsound (free_of_capturedStep hcap ?_ hsound.free)
      intro S
      simp only [capturedStep, hpi]
    · simp only [Merge.code, runCode_singleton]
      rw [return_close_agrees h' hop]
      exact Related.refl _ _
    · exact Related.refl _ _
  · next hop =>
    simp only [hop] at hs ⊢
    split_ifs with h h' h''
    -- The first instruction computes into the target of the move.
    · have hsound := hs.2 h.1 h.2
      have hpi : ∀ S, capturedStep vm S pi.instr = S := by
        intro S
        have hre := h.1
        cases hcase : pi.instr.op <;> simp [capturedStep, hcase, isRetargetable] at hre ⊢
      rw [hpi] at hsound
      simp only [Merge.code, runCode_singleton]
      exact retarget_agrees h.1 hop h.2 hsound hcap
    -- Two moves, or a move and one that is dropped, become one.
    · obtain ⟨hpi, hlt, harg0, harg2⟩ := h'
      simp only [Merge.code, runCode_singleton]
      rw [secondMove_agrees hpi hop hs.1 hlt harg0 harg2]
      exact Related.refl _ _
    · simp only [Merge.code, runCode_singleton]
      rw [dmove_agrees h''.1 hop hs.1 h''.2]
      exact Related.refl _ _
    · exact Related.refl _ _
  · next hop =>
    simp only [hop] at hs ⊢
    split_ifs with h
    · simp only [Merge.code, runCode_singleton]
      rw [dload_agrees h.1 hop hs h.2]
      exact Related.refl _ _
    · exact Related.refl _ _
  · next hop =>
    simp only [hop] at hs ⊢
    split_ifs with h
    · obtain ⟨hone, h0⟩ := hs h.1
      simp only [Merge.code, runCode_singleton]
      rw [loadnulls_agrees h.1 hop h.2 hone h0]
      exact Related.refl _ _
    · exact Related.refl _ _
  · next hjz hret hmove hload hnulls =>
    split_ifs at hlits ⊢ with hc
    · cases hk : fs.mergeKey pi.instr j.instr with
      | none => exact Related.refl _ _
      | some res =>
        obtain ⟨literals, instr⟩ := res
        simp only [hk, Merge.literals] at hlits
        -- None of the other cases applies, so the merge is that of a key.
        have hsound : KeySound vm (capturedStep vm S pi.instr) pi j := by
          split at hs
          · exact absurd ‹_› hjz
          · exact absurd ‹_› hret
          · exact absurd ‹_› hmove
          · exact absurd ‹_› hload
          · exact absurd ‹_› hnulls
          · exact hs hc (by rw [hk]; rfl)
        simp only [Merge.code, runCode_singleton]
        refine key_agrees hk hlits hc hsound (free_of_capturedStep hcap ?_ hsound.dies.free)
        intro S
        have hload := (mergeKey_ops vm hk).1
        cases hcase : pi.instr.op <;> simp [capturedStep, hcase, isLoad] at hload ⊢
    · exact Related.refl _ _

/-- A merge captures and closes what its two instructions do. -/
theorem peephole_captured (S : Set Nat) :
    (fs.peephole pi i).code.foldl (fun S j => capturedStep vm S j.instr) S =
      capturedStep vm (capturedStep vm S pi.instr) i.instr := by
  have hdrop : ∀ S, capturedStep vm S (dropSelfTarget i.instr) = capturedStep vm S i.instr := by
    intro S
    cases hcase : i.instr.op with
    | set | newslot | seti | setk | newslotk | setouter =>
      simp only [dropSelfTarget, hcase]
      split_ifs <;> simp [capturedStep, hcase]
    | _ => simp [dropSelfTarget, hcase]
  rw [← hdrop]
  unfold FuncState.peephole
  generalize dropSelfTarget i.instr = instr
  dsimp only
  -- in every branch the merged code captures what the two instructions captured
  split
  · next hop =>
    split_ifs with h
    · simp [Merge.code, capturedStep, hop, h.1, fuseJump]
    · rfl
  · next hop =>
    split_ifs with h h'
    · simp [Merge.code, capturedStep, hop]
    · simp [Merge.code, capturedStep, hop]
    · rfl
  · next hop =>
    split_ifs with h h' h''
    · have hre := h.1
      cases hcase : pi.instr.op <;>
        simp [Merge.code, capturedStep, hcase, hop, isRetargetable] at hre ⊢
    · have hre := h'.1
      cases hcase : pi.instr.op <;>
        simp [Merge.code, capturedStep, hcase, hop, takesSecondMove] at hre ⊢
    · simp [Merge.code, capturedStep, hop, h''.1]
    · rfl
  · next hop =>
    split_ifs with h
    · simp [Merge.code, capturedStep, hop, h.1]
    · rfl
  · next hop =>
    split_ifs with h
    · simp [Merge.code, capturedStep, hop, h.1]
    · rfl
  · split_ifs
    · cases hk : fs.mergeKey pi.instr instr with
      | none => rfl
      | some res =>
        obtain ⟨literals, instr'⟩ := res
        obtain ⟨hload, -, hcap⟩ :=
          mergeKey_ops vm (i := ⟨instr, i.live, i.onError, i.onJump⟩) hk
        have hpi : capturedStep vm S pi.instr = S := by
          cases hcase : pi.instr.op <;> simp [capturedStep, hcase, isLoad] at hload ⊢
        simp only [Merge.code, List.foldl_cons, List.foldl_nil, hpi, (hcap S).1, (hcap S).2]
    · rfl

/-- The table of literals only grows. -/
theorem peephole_literals (fs : FuncState) (pi i : Emitted) :
    fs.literals <+: (fs.peephole pi i).literals fs := by
  unfold FuncState.peephole
  generalize dropSelfTarget i.instr = instr
  dsimp only
  split
  case h_6 =>
    split_ifs
    · cases hk : fs.mergeKey pi.instr instr with
      | none => exact List.prefix_refl _
      | some res => exact mergeKey_literals (i := ⟨instr, i.live, i.onError, i.onJump⟩) hk
    · exact List.prefix_refl _
  all_goals
    split_ifs
    all_goals exact List.prefix_refl _

end Merge

end Quirrel.Compiler
