import Quirrel.Compiler.Peephole

/-!
# Basic blocks

A block is what the code generator does between two calls of `SnoozeOpt`. If every merge on the way
is right (`MergesSound`), the emitted code does what the instructions do one by one
(`emit_agrees`); a comparison and the jump after it may be merged when the jump tests something
else, or when the result of the comparison is still needed.
-/

set_option autoImplicit false

namespace Quirrel.Compiler

open Quirrel.Vm

variable {G : Type}

/-! ## Captured registers -/

section Captured

variable {vm : VmServices G} {lits : List SQObject} {i : Emitted} {m m' : Machine G}

@[simp]
theorem copyTarget_captured (m : Machine G) (arg0 r : Nat) :
    (m.copyTarget arg0 r).captured = m.captured := by
  unfold Machine.copyTarget
  split_ifs <;> simp

@[simp]
theorem clobber_captured (m : Machine G) (base : Nat) (f : Nat → Option SQObject) :
    (m.clobber base f).captured = m.captured := rfl

@[simp]
theorem writeAll_captured (m : Machine G) (updates : List (Nat × SQObject)) :
    (m.writeAll updates).captured = m.captured := by
  induction updates generalizing m with
  | nil => rfl
  | cons u updates ih =>
    simp only [Machine.writeAll, List.foldl_cons] at ih ⊢
    rw [ih, Machine.write_captured]

theorem execStore_captured {res : Store G × Option SQObject}
    (h : execStore i m res = .next m') : m'.captured = m.captured := by
  obtain ⟨s, _ | e⟩ := res
  · cases h
    simp
  · cases h

theorem execPrepcall_captured {key : SQObject} (h : execPrepcall vm i m key = .next m') :
    m'.captured = m.captured := by
  unfold execPrepcall at h
  split at h <;> cases h
  simp

theorem execCall_captured (h : execCall vm i m = .next m') : m'.captured = m.captured := by
  unfold execCall at h
  generalize vm.call (m.read i.instr.arg1.toNat) (callArgs i.instr m) m.store = res at h
  obtain ⟨s, clobbered, v | ⟨e, written⟩⟩ := res
  · cases h
    split_ifs <;> simp
  · cases h

theorem exec_computing_captured (hi : isComputing i.instr.op = true)
    (h : exec vm lits i m = .next m') : m'.captured = m.captured := by
  obtain ⟨c, -, hexec⟩ := exec_computing vm lits hi m
  rw [hexec] at h
  cases c <;> cases h <;> simp

/-- One instruction: where it goes on, the captured registers are among those that
`capturedStep` gives. -/
theorem exec_captured {S : Set Nat} (hcap : ∀ r, m.captured r ≠ none → r ∈ S)
    (h : exec vm lits i m = .next m') :
    ∀ r, m'.captured r ≠ none → r ∈ capturedStep vm S i.instr := by
  -- most instructions capture nothing, and `capturedStep` leaves the set alone
  have keep : m'.captured = m.captured → (capturedStep vm S i.instr = S) →
      ∀ r, m'.captured r ≠ none → r ∈ capturedStep vm S i.instr := by
    intro hm hS r hr
    rw [hS]
    exact hcap r (hm ▸ hr)
  cases hi : i.instr.op with
  | load | loadint | loadfloat | loadbool | get | getk | eq | ne | value | cmp =>
    exact keep (exec_computing_captured (by rw [hi]; rfl) h) (by simp only [capturedStep, hi])
  | set | setk | seti | newslot | newslotk =>
    simp only [exec, hi] at h
    exact keep (execStore_captured h) (by simp only [capturedStep, hi])
  | prepcall | prepcallk =>
    simp only [exec, hi] at h
    exact keep (execPrepcall_captured h) (by simp only [capturedStep, hi])
  | call =>
    simp only [exec, hi] at h
    exact keep (execCall_captured h) (by simp only [capturedStep, hi])
  | tailcall =>
    simp only [exec, hi, execTailcall] at h
    refine keep ?_ (by simp only [capturedStep, hi])
    split_ifs at h
    · split at h
      all_goals cases h
    · exact execCall_captured h
  | jcmp =>
    simp only [exec, hi] at h
    refine keep ?_ (by simp only [capturedStep, hi])
    split at h
    · split_ifs at h
      cases h
      rfl
    · cases h
  | jz =>
    simp only [exec, hi] at h
    refine keep ?_ (by simp only [capturedStep, hi])
    split_ifs at h
    cases h
    rfl
  | «return» =>
    simp only [exec, hi] at h
    cases h
  -- the close forgets the registers from its argument on
  | close =>
    simp only [exec, hi] at h
    cases h
    intro r hr
    simp only [Machine.closeOuters] at hr
    simp only [capturedStep, hi]
    split_ifs at hr with hn
    · exact absurd rfl hr
    · exact ⟨hcap r hr, by omega⟩
  -- any other instruction captures at most the register that `capturedStep` adds
  | other code =>
    simp only [exec, hi, execOther] at h
    split at h
    · cases h
      intro r hr
      simp only [writeAll_captured, Machine.capture] at hr
      simp only [capturedStep, hi]
      split_ifs at hr with hreg
      · exact .inr hreg
      · exact .inl (hcap r hr)
    all_goals cases h
  | loadcallee | getouter =>
    simp only [exec, hi] at h
    cases h
    refine keep ?_ (by simp only [capturedStep, hi])
    split_ifs <;> simp
  | _ =>
    simp only [exec, hi] at h
    cases h
    exact keep (by simp) (by simp only [capturedStep, hi])

variable (vm) in
/-- The registers that may be captured after some instructions. -/
def capturedAfter (S : Set Nat) (code : List Emitted) : Set Nat :=
  code.foldl (fun S i => capturedStep vm S i.instr) S

theorem runCode_captured {code : List Emitted} {S : Set Nat}
    (hcap : ∀ r, m.captured r ≠ none → r ∈ S) (h : runCode vm lits code m = .next m') :
    ∀ r, m'.captured r ≠ none → r ∈ capturedAfter vm S code := by
  induction code generalizing m S with
  | nil =>
    cases h
    exact hcap
  | cons i code ih =>
    simp only [runCode] at h
    cases he : exec vm lits i m with
    | next m₁ =>
      rw [he] at h
      exact ih (exec_captured hcap he) h
    | _ =>
      rw [he] at h
      cases h

end Captured

/-! ## Runs -/

section Block

variable (vm : VmServices G)

/-- The registers that are live after a block. -/
def liveAfter (L : Set Nat) (block : List CodegenStep) : Set Nat :=
  ((addedInstructions block).getLast?.map Emitted.live).getD L

/-- The code generator reads only registers that are named or on the target stack. -/
def ReadsLiveAll (L : Set Nat) : List CodegenStep → Prop
  | [] => True
  | .addInstruction i :: block => ReadsLive vm L i ∧ ReadsLiveAll i.live block
  | .getConstant _ :: block => ReadsLiveAll L block
  | .setLocals _ :: block => ReadsLiveAll L block
  | .setReturnexp _ :: block => ReadsLiveAll L block

/-- Every merge on the way is right; `S` are the registers that may be captured. -/
def MergesSound (fs : FuncState) (S : Set Nat) : List CodegenStep → Prop
  | [] => True
  | .addInstruction i :: block =>
    (∀ pi rest, fs.previous = some (pi, rest) →
      MergeSound vm fs S pi { i with instr := dropSelfTarget i.instr }) ∧
      MergesSound (fs.addInstruction i) (capturedStep vm S i.instr) block
  | .getConstant v :: block => MergesSound (fs.step (.getConstant v)) S block
  | .setLocals isLocal :: block => MergesSound (fs.step (.setLocals isLocal)) S block
  | .setReturnexp pos :: block => MergesSound (fs.step (.setReturnexp pos)) S block

/-- What is emitted after `before` does what the added instructions `plain` do. -/
structure EmittedFor (before : List Emitted) (S₀ : Set Nat) (plain : List Emitted) (S L : Set Nat)
    (fs : FuncState) : Prop where
  code : ∃ code, fs.instructions = code ++ before ∧ (code = [] → fs.previous = none) ∧
    capturedAfter vm S₀ code.reverse = S ∧ ∀ lits, fs.literals <+: lits → ∀ m : Machine G,
      (∀ r, m.captured r ≠ none → r ∈ S₀) →
        Related L (runCode vm lits plain m) (runCode vm lits code.reverse m)

variable {vm} {before plain : List Emitted} {S₀ S L : Set Nat} {fs : FuncState}

/-- Only the literals matter for what has been emitted, and there may be more of them. -/
theorem EmittedFor.congr {fs' : FuncState} (h : EmittedFor vm before S₀ plain S L fs)
    (hinstr : fs'.instructions = fs.instructions) (hprev : fs'.previous = fs.previous)
    (hlits : fs.literals <+: fs'.literals) : EmittedFor vm before S₀ plain S L fs' := by
  obtain ⟨code, hcode, hempty, hcap, hrun⟩ := h.code
  exact ⟨code, hinstr.trans hcode, fun hc => hprev.trans (hempty hc), hcap, fun lits hl =>
    hrun lits (hlits.trans hl)⟩

theorem capturedAfter_append (S : Set Nat) (code code' : List Emitted) :
    capturedAfter vm S (code ++ code') = capturedAfter vm (capturedAfter vm S code) code' :=
  List.foldl_append

/-- Replacing the end of a code by one that does the same. -/
theorem Related.runCode_append_left {lits : List SQObject} {code tail tail' : List Emitted}
    {m : Machine G} (hcap : ∀ r, m.captured r ≠ none → r ∈ S₀)
    (h : ∀ m' : Machine G, (∀ r, m'.captured r ≠ none → r ∈ capturedAfter vm S₀ code) →
      Related L (runCode vm lits tail m') (runCode vm lits tail' m')) :
    Related L (runCode vm lits (code ++ tail) m) (runCode vm lits (code ++ tail') m) := by
  rw [runCode_append, runCode_append]
  cases hrun : runCode vm lits code m with
  | next m' => exact h m' (runCode_captured hcap hrun)
  | jump live m' => exact Related.refl _ _
  | ret v s => exact Related.refl _ _
  | error e live m' => exact Related.refl _ _

/-- The instruction is pushed as it is. -/
theorem EmittedFor.push {i : Emitted} (h : EmittedFor vm before S₀ plain S L fs)
    (hr : ReadsLive vm L i) :
    EmittedFor vm before S₀ (plain ++ [i]) (capturedStep vm S i.instr) i.live (fs.push i) := by
  obtain ⟨code, hcode, -, hcap, hrun⟩ := h.code
  refine ⟨i :: code, ?_, nofun, ?_, fun lits hl m hm => ?_⟩
  · rw [FuncState.push, hcode]
    rfl
  · rw [List.reverse_cons, capturedAfter_append, hcap]
    rfl
  · rw [List.reverse_cons]
    exact (hrun lits hl m hm).runCode_snoc hr

theorem FuncState.previous_eq_some {pi : Emitted} {rest : List Emitted}
    (h : fs.previous = some (pi, rest)) : fs.instructions = pi :: rest := by
  unfold FuncState.previous at h
  split at h
  · split_ifs at h
    cases h
    assumption
  · cases h

/-- The instruction and the one before it become what the peephole optimizer makes of them. -/
theorem EmittedFor.merge {i pi : Emitted} {rest : List Emitted}
    (h : EmittedFor vm before S₀ plain S L fs) (hr : ReadsLive vm L i)
    (hprev : fs.previous = some (pi, rest))
    (hs : MergeSound vm fs S pi { i with instr := dropSelfTarget i.instr })
    {fs' : FuncState} (hinstr : fs'.instructions = (fs.peephole pi i).code.reverse ++ rest)
    (hlits : fs'.literals = (fs.peephole pi i).literals fs) :
    EmittedFor vm before S₀ (plain ++ [i]) (capturedStep vm S i.instr) i.live fs' := by
  obtain ⟨code, hcode, hempty, hcap, hrun⟩ := h.code
  cases code with
  | nil =>
    rw [hempty rfl] at hprev
    cases hprev
  | cons p code =>
    rw [FuncState.previous_eq_some hprev, List.cons_append] at hcode
    obtain ⟨rfl, rfl⟩ := List.cons.inj hcode
    rw [List.reverse_cons, capturedAfter_append] at hcap
    subst hcap
    refine ⟨(fs.peephole pi i).code.reverse ++ code, ?_, ?_, ?_, fun lits hl m hm => ?_⟩
    · rw [hinstr, List.append_assoc]
    · cases hpee : fs.peephole pi i with
      | into literals optimization pi' => simp [Merge.code]
      | push pi' i' => simp [Merge.code]
    · rw [List.reverse_append, List.reverse_reverse, capturedAfter_append]
      exact peephole_captured _
    · rw [hlits] at hl
      have hplain := (hrun lits ((peephole_literals fs pi i).trans hl) m hm).runCode_snoc hr
      refine hplain.trans ?_
      rw [List.reverse_append, List.reverse_reverse, List.reverse_cons, List.append_assoc]
      exact Related.runCode_append_left hm fun m' hm' => peephole_agrees hl hm' hs

/-- **One call of `AddInstruction`.** -/
theorem EmittedFor.addInstruction {i : Emitted} (h : EmittedFor vm before S₀ plain S L fs)
    (hr : ReadsLive vm L i)
    (hs : ∀ pi rest, fs.previous = some (pi, rest) →
      MergeSound vm fs S pi { i with instr := dropSelfTarget i.instr }) :
    EmittedFor vm before S₀ (plain ++ [i]) (capturedStep vm S i.instr) i.live
      (fs.addInstruction i) := by
  unfold FuncState.addInstruction
  cases hprev : fs.previous with
  | none => exact h.push hr
  | some p =>
    obtain ⟨pi, rest⟩ := p
    cases hpee : fs.peephole pi i with
    | into literals optimization pi' =>
      apply h.merge hr hprev (hs pi rest hprev)
      · simp [hpee, Merge.code]
      · simp [hpee, Merge.literals]
    | push pi' i' =>
      apply h.merge hr hprev (hs pi rest hprev)
      · simp [hpee, Merge.code]
      · simp [hpee, Merge.literals]

/-- The end of a block. -/
theorem EmittedFor.emit {block : List CodegenStep} (h : EmittedFor vm before S₀ plain S L fs)
    (hr : ReadsLiveAll vm L block) (hs : MergesSound vm fs S block) :
    ∃ S', EmittedFor vm before S₀ (plain ++ addedInstructions block) S' (liveAfter L block)
      (fs.emit block) := by
  induction block generalizing fs plain S L with
  | nil => exact ⟨S, by simpa [addedInstructions, liveAfter, FuncState.emit] using h⟩
  | cons s block ih =>
    cases s with
    | addInstruction i =>
      obtain ⟨S', hS'⟩ := ih (h.addInstruction hr.1 hs.1) hr.2 hs.2
      refine ⟨S', ?_⟩
      have hlive : liveAfter L (.addInstruction i :: block) = liveAfter i.live block := by
        have hadded : addedInstructions (.addInstruction i :: block) =
            i :: addedInstructions block := rfl
        rw [liveAfter, liveAfter, hadded, List.getLast?_cons]
        cases (addedInstructions block).getLast? <;> rfl
      rw [List.append_assoc] at hS'
      rw [hlive]
      exact hS'
    | getConstant v => exact ih (h.congr rfl rfl (literals_getConstant _ v)) hr hs
    | setLocals isLocal => exact ih (h.congr rfl rfl (List.prefix_refl _)) hr hs
    | setReturnexp pos => exact ih (h.congr rfl rfl (List.prefix_refl _)) hr hs

/-- **A block whose merges are right** does with the optimizer what it does without. -/
theorem emit_agrees (vm : VmServices G) (fs : FuncState) (L S : Set Nat) (block : List CodegenStep)
    (hstart : fs.optimization = false ∨ fs.instructions = []) (hr : ReadsLiveAll vm L block)
    (hs : MergesSound vm { fs with disableOptimizer := false } S block) :
    ∃ plain merged,
      (FuncState.emit { fs with disableOptimizer := true } block).instructions =
        plain ++ fs.instructions ∧
      (FuncState.emit { fs with disableOptimizer := false } block).instructions =
        merged ++ fs.instructions ∧
      ∀ lits, (FuncState.emit { fs with disableOptimizer := false } block).literals <+: lits →
        ∀ m : Machine G, (∀ r, m.captured r ≠ none → r ∈ S) →
          Related (liveAfter L block) (runCode vm lits plain.reverse m)
            (runCode vm lits merged.reverse m) := by
  have hprev : FuncState.previous { fs with disableOptimizer := false } = none := by
    rcases hstart with h | h
    · unfold FuncState.previous
      split <;> simp [h]
    · simp [FuncState.previous, h]
  have hinit : EmittedFor vm fs.instructions S [] S L { fs with disableOptimizer := false } :=
    ⟨[], rfl, fun _ => hprev, rfl, fun _ _ m _ => Related.refl L _⟩
  obtain ⟨S', hend⟩ := hinit.emit hr hs
  obtain ⟨code, hcode, -, -, hrun⟩ := hend.code
  refine ⟨(addedInstructions block).reverse, code, emit_disabled _ rfl block, hcode, ?_⟩
  intro lits hl m hm
  rw [List.reverse_reverse]
  exact hrun lits hl m hm

end Block

/-! ## Comparisons and jumps -/

section Fusion

/-- Services whose comparisons all have the result `r`. -/
def constantServices (G : Type) (r : SQInteger) : VmServices G where
  callee := .null
  outerCell _ := 0
  isPlainClosure _ _ := false
  getImpl _ _ _ s := (s, .ok .null)
  set _ _ _ s := (s, none)
  newSlot _ _ _ s := (s, none)
  append _ _ s := s
  objCmp _ _ s := (s, .ok r)
  value _ _ _ _ s := (s, .ok .null)
  call _ _ s := (s, ⟨fun _ => none, .ok .null⟩)
  reads _ := []
  writes _ := []
  jumpWrites _ := []
  captures _ := []
  other _ _ s := (s, ⟨[], fun _ => none, .next⟩)
  writes_updates := nofun
  jumpWrites_updates := nofun

/-- A frame without open outers. -/
def closedFrame (g : G) (slots : Nat → SQObject) : Machine G where
  slots := slots
  captured _ := none
  store := ⟨fun _ => .null, g⟩

/-- Both results of a test are possible, whatever the comparison. -/
theorem exists_cmpOpRes (op : Nat) (b : Bool) :
    ∃ r : SQInteger, cmpOpRes op r = b ∧ (r.setWidth 32 = 0 → r = 0) := by
  unfold cmpOpRes
  split_ifs with h1 h2 h3 h4
  · cases b
    · exact ⟨0, by decide, by decide⟩
    · exact ⟨1, by decide, by decide⟩
  · cases b
    · exact ⟨-1, by decide, by decide⟩
    · exact ⟨0, by decide, by decide⟩
  · cases b
    · exact ⟨0, by decide, by decide⟩
    · exact ⟨-1, by decide, by decide⟩
  · cases b
    · exact ⟨1, by decide, by decide⟩
    · exact ⟨0, by decide, by decide⟩
  · cases b
    · exact ⟨0, by decide, by decide⟩
    · exact ⟨1, by decide, by decide⟩

theorem cmpFits_constant {r : SQInteger} (hr : r.setWidth 32 = 0 → r = 0) (op : Nat) :
    CmpFits (constantServices G r) op := by
  refine .inr (.inr (.inr (.inr ?_)))
  intro a b s s' r' h
  cases h
  exact hr

theorem cmpOp_ne_null (op : Nat) (r : SQInteger) : cmpOp op r ≠ .null := by
  unfold cmpOp
  split_ifs <;> nofun

variable {pi i : Emitted} {fs : FuncState} {lits : List SQObject}

theorem peephole_jump (hpi : pi.instr.op = .cmp) (hi : i.instr.op = .jz)
    (hlt : pi.instr.arg1 < 0xFF) : (fs.peephole pi i).code =
      [{ i with instr := fuseJump pi.instr i.instr, onError := pi.onError }] := by
  simp [FuncState.peephole, dropSelfTarget, hi, hpi, hlt, Merge.code]

/-- A comparison with the result `r`, and the jump after it. -/
theorem runCode_pair_constant (hpi : pi.instr.op = .cmp) (hi : i.instr.op = .jz) (r : SQInteger)
    (m : Machine G) : runCode (constantServices G r) lits [pi, i] m =
      if (Vm.isFalse ((m.write pi.instr.arg0 (cmpOp pi.instr.arg3 r)).read i.instr.arg0)).toNat ≠
          i.instr.arg2 then
        .jump i.onJump (m.write pi.instr.arg0 (cmpOp pi.instr.arg3 r))
      else .next (m.write pi.instr.arg0 (cmpOp pi.instr.arg3 r)) := by
  have hw : m.withStore m.store = m := rfl
  rw [runCode_pair]
  simp only [exec, hpi, hi, compute, constantServices, assignTarget, Outcome.andThen, hw]

theorem runCode_fused_constant (hcmp : pi.instr.arg3 < 8) (hneg : i.instr.arg2 ≤ 1) (r : SQInteger)
    (m : Machine G) : runCode (constantServices G r) lits
        [{ i with instr := fuseJump pi.instr i.instr, onError := pi.onError }] m =
      if (cmpOpRes pi.instr.arg3 r).toNat = i.instr.arg2 then .jump i.onJump m else .next m := by
  have hw : m.withStore m.store = m := rfl
  obtain ⟨hmod, hdiv⟩ := fuseJump_arg3 hcmp hneg
  rw [runCode_singleton]
  simp only [exec, fuseJump, hmod, hdiv, constantServices, hw]

/-- The result of the comparison is lost: frames that agree do not see it. -/
theorem not_agree_write [Inhabited G] {L : Set Nat} {t : Nat} (ht : t ∈ L) (op : Nat)
    (r : SQInteger) : ¬ Agree L ((closedFrame (default : G) fun _ => .null).write t (cmpOp op r))
      (closedFrame default fun _ => .null) := by
  intro h
  have hread := h.read t ht
  rw [Machine.read_write_self] at hread
  exact cmpOp_ne_null op r hread

/-- **Exactly when a comparison may be fused with a jump**: the jump tests the comparison, and its
result is not needed on either branch. -/
theorem jump_agrees_iff [Inhabited G] (S : Set Nat) (hpi : pi.instr.op = .cmp)
    (hi : i.instr.op = .jz) (hlt : pi.instr.arg1 < 0xFF) (hoperand : 0 ≤ pi.instr.arg1)
    (hcmp : pi.instr.arg3 < 8) (hneg : i.instr.arg2 ≤ 1) :
    (∀ (vm : VmServices G) lits (m : Machine G), CmpFits vm pi.instr.arg3 →
        (∀ r, m.captured r ≠ none → r ∈ S) → Related i.live (runCode vm lits [pi, i] m)
          (runCode vm lits (fs.peephole pi i).code m)) ↔
      i.instr.arg0 = pi.instr.arg0 ∧ pi.instr.arg0 ∉ S ∧ pi.instr.arg0 ∉ i.live ∧
        pi.instr.arg0 ∉ i.onJump := by
  rw [peephole_jump hpi hi hlt]
  constructor
  · intro h
    have hclosed : ∀ (slots : Nat → SQObject) r, (closedFrame (default : G) slots).captured r ≠ none →
        r ∈ S := fun _ _ hr => absurd rfl hr
    have htests : i.instr.arg0 = pi.instr.arg0 := by
      by_contra hne
      -- The register that the jump tests is false, and the comparison is true.
      obtain ⟨r, hr, hfit⟩ := exists_cmpOpRes pi.instr.arg3 true
      have hrel := h (constantServices G r) [] (closedFrame default fun _ => .bool false)
        (cmpFits_constant hfit _) (hclosed _)
      rw [runCode_pair_constant hpi hi, runCode_fused_constant hcmp hneg, hr,
        Machine.read_write_of_ne rfl hne] at hrel
      have hread : Vm.isFalse ((closedFrame (default : G) fun _ => .bool false).read i.instr.arg0) =
          true := rfl
      rw [hread] at hrel
      by_cases h1 : (true.toNat : Nat) = i.instr.arg2
      · rw [if_neg (not_not.2 h1), if_pos h1] at hrel
        cases hrel
      · rw [if_pos h1, if_neg h1] at hrel
        cases hrel
    refine ⟨htests, fun hS => ?_, fun hlive => ?_, fun hjump => ?_⟩
    · -- The result goes to the cell of an open outer, which is part of the store.
      obtain ⟨r, -, hfit⟩ := exists_cmpOpRes pi.instr.arg3 true
      have hrel := h (constantServices G r) []
        { closedFrame (default : G) fun _ => .null with
          captured := Function.update (fun _ => none) pi.instr.arg0 (some 0) }
        (cmpFits_constant hfit _) (fun q hq => ?_)
      · rw [runCode_pair_constant hpi hi, runCode_fused_constant hcmp hneg] at hrel
        have hstore : ∀ {L : Set Nat}, ¬ Agree L
            (Machine.write { closedFrame (default : G) fun _ => .null with
              captured := Function.update (fun _ => none) pi.instr.arg0 (some 0) } pi.instr.arg0
              (cmpOp pi.instr.arg3 r))
            { closedFrame (default : G) fun _ => .null with
              captured := Function.update (fun _ => none) pi.instr.arg0 (some 0) } := by
          intro L hagree
          have hcells := congrFun (congrArg Store.cells hagree.store) 0
          simp [Machine.write, closedFrame] at hcells
          exact cmpOp_ne_null _ _ hcells
        split_ifs at hrel <;> cases hrel <;> exact hstore ‹_›
      · by_cases hqt : q = pi.instr.arg0
        · exact hqt ▸ hS
        · simp [Function.update_of_ne hqt] at hq
    · obtain ⟨r, hr, hfit⟩ := exists_cmpOpRes pi.instr.arg3 (decide (i.instr.arg2 = 0))
      have hrel := h (constantServices G r) [] (closedFrame default fun _ => .null)
        (cmpFits_constant hfit _) (hclosed _)
      have hfall : ¬ (cmpOpRes pi.instr.arg3 r).toNat = i.instr.arg2 := by
        rw [hr]
        by_cases h0 : i.instr.arg2 = 0
        · simp [h0]
        · simp only [h0, decide_false, Bool.toNat_false]
          omega
      rw [runCode_pair_constant hpi hi, runCode_fused_constant hcmp hneg, if_neg hfall] at hrel
      split_ifs at hrel
      · cases hrel
      · cases hrel with
        | next hagree => exact not_agree_write hlive _ _ hagree
    · obtain ⟨r, hr, hfit⟩ := exists_cmpOpRes pi.instr.arg3 (decide (i.instr.arg2 = 1))
      have hrel := h (constantServices G r) [] (closedFrame default fun _ => .null)
        (cmpFits_constant hfit _) (hclosed _)
      have htaken : (cmpOpRes pi.instr.arg3 r).toNat = i.instr.arg2 := by
        rw [hr]
        by_cases h1 : i.instr.arg2 = 1
        · simp [h1]
        · simp only [h1, decide_false, Bool.toNat_false]
          omega
      rw [runCode_pair_constant hpi hi, runCode_fused_constant hcmp hneg, if_pos htaken] at hrel
      split_ifs at hrel
      · cases hrel with
        | jump hagree => exact not_agree_write hjump _ _ hagree
      · cases hrel
  · rintro ⟨htests, hS, hlive, hjump⟩ vm lits m hfit hcap
    rw [runCode_singleton]
    refine jump_agrees hpi hi hlt ⟨htests, ⟨hS, fun h => absurd h hlive⟩, hjump, hfit, hneg, hoperand,
      hcmp⟩ (not_not.1 fun h => hS (hcap _ h))

end Fusion

/-! ## Emission with and without the optimizer -/

/-- In every block whose merges are right the optimizer changes nothing that can be seen, and for a
comparison and the jump after it that condition is exact. -/
theorem optimized_agrees [Inhabited G] :
    (∀ (vm : VmServices G) (fs : FuncState) (L S : Set Nat) (block : List CodegenStep),
      fs.optimization = false ∨ fs.instructions = [] → ReadsLiveAll vm L block →
      MergesSound vm { fs with disableOptimizer := false } S block →
      ∃ plain merged,
        (FuncState.emit { fs with disableOptimizer := true } block).instructions =
          plain ++ fs.instructions ∧
        (FuncState.emit { fs with disableOptimizer := false } block).instructions =
          merged ++ fs.instructions ∧
        ∀ lits, (FuncState.emit { fs with disableOptimizer := false } block).literals <+: lits →
          ∀ m : Machine G, (∀ r, m.captured r ≠ none → r ∈ S) →
            Related (liveAfter L block) (runCode vm lits plain.reverse m)
              (runCode vm lits merged.reverse m)) ∧
    ∀ (fs : FuncState) (pi i : Emitted) (S : Set Nat), pi.instr.op = .cmp → i.instr.op = .jz →
      pi.instr.arg1 < 0xFF → 0 ≤ pi.instr.arg1 → pi.instr.arg3 < 8 → i.instr.arg2 ≤ 1 →
      ((∀ (vm : VmServices G) lits (m : Machine G), CmpFits vm pi.instr.arg3 →
        (∀ r, m.captured r ≠ none → r ∈ S) → Related i.live (runCode vm lits [pi, i] m)
          (runCode vm lits (fs.peephole pi i).code m)) ↔
      i.instr.arg0 = pi.instr.arg0 ∧ pi.instr.arg0 ∉ S ∧ pi.instr.arg0 ∉ i.live ∧
        pi.instr.arg0 ∉ i.onJump) := by
  constructor
  · intro vm fs L S block hstart hr hs
    exact emit_agrees vm fs L S block hstart hr hs
  · intro fs pi i S hpi hi hlt hoperand hcmp hneg
    exact jump_agrees_iff S hpi hi hlt hoperand hcmp hneg

/-- A function without instructions and with three locals. -/
def emptyFuncState : FuncState where
  instructions := []
  optimization := true
  disableOptimizer := false
  literals := []
  isLocal r := decide (r < 3)
  hasParent := true
  returnexp := -1

/-- `a < b` into register 5, and a jump that tests `reg`; registers 0 to 2 are named. -/
def compareThenTest (reg : Nat) (live : Set Nat) : List CodegenStep :=
  [.addInstruction ⟨⟨.cmp, 5, 2, 1, cmpL⟩, {0, 1, 2, 5}, none, ∅⟩,
    .addInstruction ⟨⟨.jz, reg, 7, 0, 0⟩, live, none, live⟩]

theorem readsLive_compareThenTest {reg : Nat} {live : Set Nat} (hreg : reg ∈ ({0, 1, 2, 5} : Set Nat))
    (hlive : live ⊆ {0, 1, 2, 5}) :
    ReadsLiveAll (constantServices Unit 0) {0, 1, 2} (compareThenTest reg live) := by
  refine ⟨⟨?_, ?_, nofun, fun _ => nofun⟩, ⟨?_, fun r hr => .inl (hlive hr), nofun, fun _ r hr =>
    .inl (hlive hr)⟩, trivial⟩
  · intro r hr
    simp only [uses, List.mem_cons, List.not_mem_nil, or_false] at hr
    rcases hr with rfl | rfl <;> simp
  · intro r hr
    simp only [Set.mem_insert_iff, Set.mem_singleton_iff] at hr
    rcases hr with rfl | rfl | rfl | rfl <;> simp [defines]
  · intro r hr
    simp only [uses, List.mem_cons, List.not_mem_nil, or_false] at hr
    exact hr ▸ hreg

/-- `if (a < b)` -/
theorem optimized_agrees_if :
    (∃ plain merged,
      (FuncState.emit { emptyFuncState with disableOptimizer := true }
        (compareThenTest 5 {0, 1, 2})).instructions = plain ++ [] ∧
      (FuncState.emit emptyFuncState (compareThenTest 5 {0, 1, 2})).instructions = merged ++ [] ∧
      ∀ lits, (FuncState.emit emptyFuncState (compareThenTest 5 {0, 1, 2})).literals <+: lits →
        ∀ m : Machine Unit, (∀ r, m.captured r ≠ none → r ∈ (∅ : Set Nat)) →
          Related (liveAfter {0, 1, 2} (compareThenTest 5 {0, 1, 2}))
            (runCode (constantServices Unit 0) lits plain.reverse m)
            (runCode (constantServices Unit 0) lits merged.reverse m)) := by
  apply optimized_agrees.1 (constantServices Unit 0) emptyFuncState {0, 1, 2} ∅
  · exact .inr rfl
  · refine readsLive_compareThenTest (by simp) fun r hr => ?_
    simp only [Set.mem_insert_iff, Set.mem_singleton_iff] at hr ⊢
    tauto
  · refine ⟨nofun, ?_, trivial⟩
    intro pi rest h
    cases h
    intro _ _
    refine ⟨rfl, ⟨?_, ?_⟩, ?_, .inr (.inr (.inl rfl)), by decide, by decide, by decide⟩
    · exact fun h => h
    · intro h
      simp at h
    · simp

/-- The result of `a < b` waits on the target stack in register 5 while the jump tests the local in
register 0: emission makes one instruction of the two, which branches on `a < b`. -/
theorem comparison_fused_with_other_test :
    ReadsLiveAll (constantServices Unit 0) {0, 1, 2} (compareThenTest 0 {0, 1, 2, 5}) ∧
      ¬ Related (liveAfter {0, 1, 2} (compareThenTest 0 {0, 1, 2, 5}))
        (runCode (constantServices Unit 0) []
          (FuncState.emit { emptyFuncState with disableOptimizer := true }
            (compareThenTest 0 {0, 1, 2, 5})).instructions.reverse
          (closedFrame () fun _ => .bool true))
        (runCode (constantServices Unit 0) []
          (FuncState.emit emptyFuncState (compareThenTest 0 {0, 1, 2, 5})).instructions.reverse
          (closedFrame () fun _ => .bool true)) := by
  constructor
  · exact readsLive_compareThenTest (by simp) fun r hr => hr
  · have hplain : runCode (constantServices Unit 0) []
        (FuncState.emit { emptyFuncState with disableOptimizer := true }
          (compareThenTest 0 {0, 1, 2, 5})).instructions.reverse
        (closedFrame () fun _ => .bool true) =
        .next ((closedFrame () fun _ => .bool true).write 5 (.bool false)) := rfl
    have hmerged : runCode (constantServices Unit 0) []
        (FuncState.emit emptyFuncState (compareThenTest 0 {0, 1, 2, 5})).instructions.reverse
        (closedFrame () fun _ => .bool true) =
        .jump {0, 1, 2, 5} (closedFrame () fun _ => .bool true) := rfl
    rw [hplain, hmerged]
    intro h
    cases h

end Quirrel.Compiler
