import Quirrel.StaticAnalyzer.Statements

/-!
# Unconditionally terminated loops

`LoopTerminatorCollector` walks the body of a loop once and counts a terminator as unconditional when
it is not below an `if` or a `switch`. A try part that is left by an exception, a catch part that does
not run, and a code block in an expression are not such conditions for it (a `throw` in a try part is
the only exception). Main theorem `hasUnconditionalTerminator_iff`: of a body that is reported no
execution completes exactly when none skips the counted terminators in one of these ways. The control
example is `hasUnconditionalTerminator_caught`.
-/

set_option autoImplicit false

namespace Quirrel.StaticAnalyzer

universe u v w

/-- An expression and the code blocks in it that a visitor gets to, in the order of the visit. (Functions
are skipped, and so are declarations.) -/
inductive Expr (X : Type u) where
  | mk (x : X) (codeBlocks : Statements (Expr X))

variable {X : Type u}

/-! ## The collector -/

/-- `_firstLevel`, `_inSwitch`, `_inTry`. -/
structure Level where
  firstLevel : Bool
  inSwitch : Bool
  inTry : Bool

namespace Level

/-- Below a condition. -/
def conditional (l : Level) : Level := { l with firstLevel := false }

/-- In the body of a `switch`. -/
def switch (l : Level) : Level := { l with firstLevel := false, inSwitch := true }

/-- In a `try` statement. -/
def tried (l : Level) : Level := { l with inTry := true }

end Level

/-- `LoopTerminatorCollector` -/
structure LoopTerminatorCollector (X : Type u) where
  hasCondBreak : Bool
  hasCondContinue : Bool
  hasCondReturn : Bool
  hasCondThrow : Bool
  hasUnconditionalTerm : Bool
  hasUnconditionalContinue : Bool
  terminator : Option (Statement (Expr X))

namespace LoopTerminatorCollector

/-- The collector as it is constructed. -/
def start : LoopTerminatorCollector X := ⟨false, false, false, false, false, false, none⟩

/-- An unconditional terminator; `setTerminator` keeps the first one. -/
def unconditional (c : LoopTerminatorCollector X) (stmt : Statement (Expr X)) :
    LoopTerminatorCollector X :=
  { c with hasUnconditionalTerm := true, terminator := c.terminator.or (some stmt) }

/-- `visitReturnStatement` -/
def visitReturnStatement (l : Level) (c : LoopTerminatorCollector X) (stmt : Statement (Expr X)) :
    LoopTerminatorCollector X :=
  if l.firstLevel then c.unconditional stmt
  else if !c.hasUnconditionalTerm then { c with hasCondReturn := true }
  else c

/-- `visitThrowStatement` -/
def visitThrowStatement (l : Level) (c : LoopTerminatorCollector X) (stmt : Statement (Expr X)) :
    LoopTerminatorCollector X :=
  if l.firstLevel && !l.inTry then c.unconditional stmt
  else if !c.hasUnconditionalTerm then { c with hasCondThrow := true }
  else c

/-- `visitBreakStatement` -/
def visitBreakStatement (l : Level) (c : LoopTerminatorCollector X) (stmt : Statement (Expr X)) :
    LoopTerminatorCollector X :=
  if l.firstLevel then c.unconditional stmt
  else if !l.inSwitch && !c.hasUnconditionalTerm then { c with hasCondBreak := true }
  else c

/-- `visitContinueStatement` -/
def visitContinueStatement (l : Level) (c : LoopTerminatorCollector X) (stmt : Statement (Expr X)) :
    LoopTerminatorCollector X :=
  if l.firstLevel then { c.unconditional stmt with hasUnconditionalContinue := true }
  else if !c.hasUnconditionalTerm then { c with hasCondContinue := true }
  else c

mutual

/-- An expression is visited for the code blocks in it. -/
def visitExpr (l : Level) (c : LoopTerminatorCollector X) : Expr X → LoopTerminatorCollector X
  | .mk _ codeBlocks => visitAll l c codeBlocks

/-- Nested loops are skipped. -/
def visit (l : Level) (c : LoopTerminatorCollector X) :
    Statement (Expr X) → LoopTerminatorCollector X
  | .empty => c
  | .expr e => visitExpr l c e
  | .block statements => visitAll l c statements
  | .ifThen condition thenBranch =>
    visit l.conditional (visitExpr l.conditional c condition) thenBranch
  | .ifElse condition thenBranch elseBranch =>
    visit l.conditional (visit l.conditional (visitExpr l.conditional c condition) thenBranch)
      elseBranch
  | .whileLoop _ _ => c
  | .doWhile _ _ => c
  | .forLoop _ _ _ _ => c
  | .foreach _ _ => c
  | .switch expression cases => visitCases l.switch (visitExpr l.switch c expression) cases
  | .tryCatch tryStatement catchStatement => visit l (visit l.tried c tryStatement) catchStatement
  | .breakStatement => visitBreakStatement l c .breakStatement
  | .continueStatement => visitContinueStatement l c .continueStatement
  | .returnStatement argument => visitReturnStatement l c (.returnStatement argument)
  | .throwStatement argument => visitThrowStatement l c (.throwStatement argument)

/-- The statements of a block, in order. -/
def visitAll (l : Level) (c : LoopTerminatorCollector X) :
    Statements (Expr X) → LoopTerminatorCollector X
  | .nil => c
  | .cons s rest => visitAll l (visit l c s) rest

/-- The cases of a `switch`, in order. -/
def visitCases (l : Level) (c : LoopTerminatorCollector X) :
    SwitchCases (Expr X) → LoopTerminatorCollector X
  | .noDefault => c
  | .default stmt => visit l c stmt
  | .case val stmt rest => visitCases l (visit l (visitExpr l c val) stmt) rest

end

/-- `hasUnconditionalTerminator` of a collector. -/
def hasUnconditionalTerminator (c : LoopTerminatorCollector X) : Bool :=
  if c.hasCondContinue then false else c.hasUnconditionalTerm

/-- The collector of `checkUnterminatedLoop`, after the body. -/
def ofBody (body : Statement (Expr X)) : LoopTerminatorCollector X :=
  start.visit ⟨true, false, false⟩ body

end LoopTerminatorCollector

open LoopTerminatorCollector

/-! ## What is counted -/

mutual

/-- Whether a code block of the expression is counted. -/
def Expr.counted (inTry : Bool) : Expr X → Bool
  | .mk _ codeBlocks => codeBlocks.counted inTry

/-- There is a terminator that is not below an `if`, a `switch` or a nested loop; a `throw` only counts
outside try parts. -/
def Statement.counted (inTry : Bool) : Statement (Expr X) → Bool
  | .empty => false
  | .expr e => e.counted inTry
  | .block statements => statements.counted inTry
  | .ifThen _ _ => false
  | .ifElse _ _ _ => false
  | .whileLoop _ _ => false
  | .doWhile _ _ => false
  | .forLoop _ _ _ _ => false
  | .foreach _ _ => false
  | .switch _ _ => false
  | .tryCatch tryStatement catchStatement =>
    tryStatement.counted true || catchStatement.counted inTry
  | .breakStatement => true
  | .continueStatement => true
  | .returnStatement _ => true
  | .throwStatement _ => !inTry

/-- Whether a statement of the block is counted. -/
def Statements.counted (inTry : Bool) : Statements (Expr X) → Bool
  | .nil => false
  | .cons s rest => s.counted inTry || rest.counted inTry

end

namespace LoopTerminatorCollector

/-- A reported terminator is there exactly when one has been counted. -/
def Reports (c : LoopTerminatorCollector X) : Prop := c.terminator.isSome = c.hasUnconditionalTerm

/-- What a visit does: it counts what there is to count, if it is not below a condition. -/
structure Counts (c c' : LoopTerminatorCollector X) (counted : Bool) : Prop where
  term : c'.hasUnconditionalTerm = (c.hasUnconditionalTerm || counted)
  reports : c.Reports → c'.Reports

namespace Counts

variable {c c₁ c₂ : LoopTerminatorCollector X} {a b : Bool}

theorem refl (c : LoopTerminatorCollector X) : Counts c c false :=
  ⟨(Bool.or_false _).symm, id⟩

theorem trans (h : Counts c c₁ a) (h' : Counts c₁ c₂ b) : Counts c c₂ (a || b) :=
  ⟨by rw [h'.term, h.term, Bool.or_assoc], h'.reports ∘ h.reports⟩

theorem unconditional (c : LoopTerminatorCollector X) (stmt : Statement (Expr X)) :
    Counts c (c.unconditional stmt) true := by
  refine ⟨(Bool.or_true _).symm, fun _ => ?_⟩
  show (c.terminator.or (some stmt)).isSome = true
  cases c.terminator <;> rfl

/-- A terminator that counts under the condition `a`, and is noted under the condition `b`
otherwise. -/
theorem ite (hcounted : Counts c c₁ true) (hnoted : Counts c c₂ false) :
    Counts c (if a then c₁ else if b then c₂ else c) a := by
  cases a with
  | true => exact hcounted
  | false =>
    cases b with
    | true => exact hnoted
    | false => exact .refl c

end Counts

section Terminators

variable (l : Level) (c : LoopTerminatorCollector X) (stmt : Statement (Expr X))

theorem counts_return : Counts c (visitReturnStatement l c stmt) l.firstLevel :=
  .ite (.unconditional c stmt) ⟨(Bool.or_false _).symm, id⟩

theorem counts_throw : Counts c (visitThrowStatement l c stmt) (l.firstLevel && !l.inTry) :=
  .ite (.unconditional c stmt) ⟨(Bool.or_false _).symm, id⟩

theorem counts_break : Counts c (visitBreakStatement l c stmt) l.firstLevel :=
  .ite (.unconditional c stmt) ⟨(Bool.or_false _).symm, id⟩

theorem counts_continue : Counts c (visitContinueStatement l c stmt) l.firstLevel :=
  .ite ⟨(Counts.unconditional c stmt).term, (Counts.unconditional c stmt).reports⟩
    ⟨(Bool.or_false _).symm, id⟩

end Terminators

mutual

theorem counts_visitExpr (l : Level) (c : LoopTerminatorCollector X) (e : Expr X) :
    Counts c (visitExpr l c e) (l.firstLevel && e.counted l.inTry) :=
  match e with
  | .mk _ codeBlocks => by
    rw [visitExpr, Expr.counted]
    exact counts_visitAll l c codeBlocks

theorem counts_visit (l : Level) (c : LoopTerminatorCollector X) (s : Statement (Expr X)) :
    Counts c (visit l c s) (l.firstLevel && s.counted l.inTry) := by
  cases s with
  | expr e =>
    rw [visit, Statement.counted]
    exact counts_visitExpr l c e
  | block statements =>
    rw [visit, Statement.counted]
    exact counts_visitAll l c statements
  | ifThen condition thenBranch =>
    -- nothing below the condition is at the first level
    rw [visit, Statement.counted, Bool.and_false]
    exact (counts_visitExpr l.conditional c condition).trans (counts_visit l.conditional _ thenBranch)
  | ifElse condition thenBranch elseBranch =>
    rw [visit, Statement.counted, Bool.and_false]
    exact ((counts_visitExpr l.conditional c condition).trans
      (counts_visit l.conditional _ thenBranch)).trans (counts_visit l.conditional _ elseBranch)
  | switch expression cases =>
    rw [visit, Statement.counted, Bool.and_false]
    exact (counts_visitExpr l.switch c expression).trans (counts_visitCases l.switch _ rfl cases)
  | tryCatch tryStatement catchStatement =>
    rw [visit, Statement.counted, Bool.and_or_distrib_left]
    exact (counts_visit l.tried c tryStatement).trans (counts_visit l _ catchStatement)
  | breakStatement =>
    rw [visit, Statement.counted, Bool.and_true]
    exact counts_break l c _
  | continueStatement =>
    rw [visit, Statement.counted, Bool.and_true]
    exact counts_continue l c _
  | returnStatement argument =>
    rw [visit, Statement.counted, Bool.and_true]
    exact counts_return l c _
  | throwStatement argument =>
    rw [visit, Statement.counted]
    exact counts_throw l c _
  | empty | whileLoop _ _ | doWhile _ _ | forLoop _ _ _ _ | foreach _ _ =>
    rw [visit, Statement.counted, Bool.and_false]
    exact .refl c

theorem counts_visitAll (l : Level) (c : LoopTerminatorCollector X) (ss : Statements (Expr X)) :
    Counts c (visitAll l c ss) (l.firstLevel && ss.counted l.inTry) := by
  cases ss with
  | nil =>
    rw [visitAll, Statements.counted, Bool.and_false]
    exact .refl c
  | cons s rest =>
    rw [visitAll, Statements.counted, Bool.and_or_distrib_left]
    exact (counts_visit l c s).trans (counts_visitAll l _ rest)

theorem counts_visitCases (l : Level) (c : LoopTerminatorCollector X) (hl : l.firstLevel = false)
    (cs : SwitchCases (Expr X)) : Counts c (visitCases l c cs) false := by
  cases cs with
  | noDefault =>
    rw [visitCases]
    exact .refl c
  | default stmt =>
    have h := counts_visit l c stmt
    rw [hl] at h
    rw [visitCases]
    exact h
  | case val stmt rest =>
    have hval := counts_visitExpr l c val
    have hstmt := counts_visit l (visitExpr l c val) stmt
    rw [hl] at hval hstmt
    rw [visitCases]
    exact (hval.trans hstmt).trans (counts_visitCases l _ hl rest)

end

/-- A body that is reported has a terminator to report, and it is one that counts. -/
theorem counted_of_reported {body : Statement (Expr X)}
    (h : (ofBody body).hasUnconditionalTerminator = true) :
    (ofBody body).terminator.isSome = true ∧ body.counted false = true := by
  have hterm : (ofBody body).hasUnconditionalTerm = true := by
    unfold hasUnconditionalTerminator at h
    split at h
    · cases h
    · exact h
  have hcounts : Counts start (ofBody body) (true && body.counted false) :=
    counts_visit ⟨true, false, false⟩ start body
  refine ⟨(hcounts.reports rfl).trans hterm, ?_⟩
  exact hcounts.term.symm.trans hterm

end LoopTerminatorCollector

/-! ## How the counted terminators are skipped -/

section Executions

variable {S : Type v} {V : Type w} (sem : Semantics (Expr X) S V)

mutual

/-- An execution completes the statement although a terminator in it counts: the terminator is in a try
part that throws, or in a catch part while the try part completes, or in a code block of an expression
with a value. -/
inductive Skips : Bool → Statement (Expr X) → S → S → Prop where
  | block {inTry : Bool} {ss : Statements (Expr X)} {s s' : S} :
      SkipsIn inTry ss s s' → Skips inTry (.block ss) s s'
  | codeBlock {inTry : Bool} {e : Expr X} {s s' : S} {v : V} :
      e.counted inTry = true → sem.eval e s s' (some v) → Skips inTry (.expr e) s s'
  | caught {inTry : Bool} {t c : Statement (Expr X)} {s s₁ s' : S} :
      t.counted true = true → Exec sem t s .thrown s₁ →
      Exec sem c (sem.caught s₁) .normal s' → Skips inTry (.tryCatch t c) s s'
  | inTryPart {inTry : Bool} {t c : Statement (Expr X)} {s s' : S} :
      Skips true t s s' → Skips inTry (.tryCatch t c) s s'
  | noException {inTry : Bool} {t c : Statement (Expr X)} {s s' : S} :
      t.counted true = false → c.counted inTry = true → Exec sem t s .normal s' →
      Skips inTry (.tryCatch t c) s s'
  | inCatchPart {inTry : Bool} {t c : Statement (Expr X)} {s s₁ s' : S} :
      Exec sem t s .thrown s₁ → Skips inTry c (sem.caught s₁) s' → Skips inTry (.tryCatch t c) s s'

/-- `Skips` for a block: the statements before the skipped one are executed. -/
inductive SkipsIn : Bool → Statements (Expr X) → S → S → Prop where
  | here {inTry : Bool} {t : Statement (Expr X)} {rest : Statements (Expr X)} {s s₁ s' : S} :
      Skips inTry t s s₁ → ExecAll sem rest s₁ .normal s' → SkipsIn inTry (.cons t rest) s s'
  | later {inTry : Bool} {t : Statement (Expr X)} {rest : Statements (Expr X)} {s s₁ s' : S} :
      Exec sem t s .normal s₁ → SkipsIn inTry rest s₁ s' → SkipsIn inTry (.cons t rest) s s'

end

variable {sem}

mutual

theorem Skips.exec {inTry : Bool} {t : Statement (Expr X)} {s s' : S} (h : Skips sem inTry t s s') :
    Exec sem t s .normal s' := by
  cases h with
  | block h => exact .block h.exec
  | codeBlock _ he => exact .expr he
  | caught _ ht hc => exact .tryCaught ht hc
  | inTryPart h => exact .tryDone h.exec nofun
  | noException _ _ ht => exact .tryDone ht nofun
  | inCatchPart ht h => exact .tryCaught ht h.exec

theorem SkipsIn.exec {inTry : Bool} {ss : Statements (Expr X)} {s s' : S}
    (h : SkipsIn sem inTry ss s s') : ExecAll sem ss s .normal s' := by
  cases h with
  | here h hrest => exact .cons h.exec hrest
  | later ht h => exact .cons ht h.exec

end

mutual

/-- A statement that completes although a terminator counts skips it. -/
theorem skips_of_completes {inTry : Bool} {t : Statement (Expr X)} {s s' : S}
    (h : t.counted inTry = true) (hx : Exec sem t s .normal s') : Skips sem inTry t s s' := by
  cases t with
  | expr e =>
    cases hx with
    | expr he => exact .codeBlock h he
  | block ss =>
    cases hx with
    | block hx => exact .block (skipsIn_of_completes h hx)
  | tryCatch t c =>
    cases hx with
    | tryDone ht _ =>
      by_cases hcounted : t.counted true = true
      · exact .inTryPart (skips_of_completes hcounted ht)
      · rw [Bool.not_eq_true] at hcounted
        rw [Statement.counted, hcounted, Bool.false_or] at h
        exact .noException hcounted h ht
    | tryCaught ht hc =>
      by_cases hcounted : t.counted true = true
      · exact .caught hcounted ht hc
      · rw [Bool.not_eq_true] at hcounted
        rw [Statement.counted, hcounted, Bool.false_or] at h
        exact .inCatchPart ht (skips_of_completes h hc)
  | breakStatement | continueStatement | returnStatement _ | throwStatement _ => cases hx
  | empty | ifThen _ _ | ifElse _ _ _ | whileLoop _ _ | doWhile _ _ | forLoop _ _ _ _ | foreach _ _
  | switch _ _ => exact absurd h Bool.false_ne_true

theorem skipsIn_of_completes {inTry : Bool} {ss : Statements (Expr X)} {s s' : S}
    (h : ss.counted inTry = true) (hx : ExecAll sem ss s .normal s') :
    SkipsIn sem inTry ss s s' := by
  cases ss with
  | nil => exact absurd h Bool.false_ne_true
  | cons t rest =>
    cases hx with
    | stop _ hne => exact absurd rfl hne
    | cons ht hx =>
      rcases (Bool.or_eq_true _ _).mp h with h | h
      · exact .here (skips_of_completes h ht) hx
      · exact .later ht (skipsIn_of_completes h hx)

end

/-- There is a terminator in a body that is reported, and no execution of the body completes exactly
when none skips the terminators that count. -/
theorem hasUnconditionalTerminator_iff (sem : Semantics (Expr X) S V) (body : Statement (Expr X))
    (h : (ofBody body).hasUnconditionalTerminator = true) :
    (ofBody body).terminator.isSome = true ∧
      ((∀ s s', ¬ Exec sem body s .normal s') ↔ ∀ s s', ¬ Skips sem false body s s') := by
  obtain ⟨hterminator, hcounted⟩ := counted_of_reported h
  refine ⟨hterminator, fun hno s s' hskips => hno s s' hskips.exec, fun hno s s' hx => ?_⟩
  exact hno s s' (skips_of_completes hcounted hx)

end Executions

/-- Expressions without code blocks that throw or not as they say. -/
def throwing : Semantics (Expr Bool) Unit Unit where
  eval
    | .mk throws _, s, s', r => s' = s ∧ r = if throws then none else some ()
  truth _ := true
  isEqual _ _ := true
  next _ s s' r := s' = s ∧ r = some false
  caught s := s

/-- A loop that returns after a call. -/
theorem hasUnconditionalTerminator_iff_return :
    ¬ Exec throwing (.block (.cons (.expr (.mk false .nil))
      (.cons (.returnStatement none) .nil))) () .normal () := by
  refine ((hasUnconditionalTerminator_iff throwing _ (by decide)).2).mpr (fun s s' h => ?_) () ()
  cases h with
  | block h =>
    cases h with
    | here h _ =>
      cases h with
      | codeBlock h _ => exact absurd h Bool.false_ne_true
    | later _ h =>
      cases h with
      | here h _ => cases h
      | later _ h => cases h

/-- `try { f(); return } catch (e) {}`, where the call of `f` throws. -/
def caughtBody : Statement (Expr Bool) :=
  .tryCatch (.block (.cons (.expr (.mk true .nil)) (.cons (.returnStatement none) .nil)))
    (.block .nil)

/-- The body is reported although it completes. -/
theorem hasUnconditionalTerminator_caught :
    (ofBody caughtBody).hasUnconditionalTerminator = true ∧
      Exec throwing caughtBody () .normal () :=
  ⟨by decide, .tryCaught (.block (.stop (.exprThrow ⟨rfl, rfl⟩) nofun)) (.block .nil)⟩

end Quirrel.StaticAnalyzer
