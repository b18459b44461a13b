import Mathlib.Tactic.TypeStar

/-!
# Statements and their executions

The statements that the analyser walks, over any type of expressions, and their big-step execution
as the generated code runs them. What expressions do is a parameter (`Semantics`); an execution is
any derivation, and a statement that runs forever has none.
-/

set_option autoImplicit false

namespace Quirrel.StaticAnalyzer

universe u v w

mutual

/-- The statements of the language, over any type of expressions. -/
inductive Statement (E : Type u) where
  | empty
  /-- An expression statement or a declaration. -/
  | expr (e : E)
  | block (statements : Statements E)
  | ifThen (condition : E) (thenBranch : Statement E)
  | ifElse (condition : E) (thenBranch elseBranch : Statement E)
  | whileLoop (condition : E) (body : Statement E)
  | doWhile (body : Statement E) (condition : E)
  | forLoop (initializer condition modifier : Option E) (body : Statement E)
  | foreach (container : E) (body : Statement E)
  | switch (expression : E) (cases : SwitchCases E)
  | tryCatch (tryStatement catchStatement : Statement E)
  | breakStatement
  | continueStatement
  | returnStatement (argument : Option E)
  | throwStatement (argument : E)

/-- The statements of a block. -/
inductive Statements (E : Type u) where
  | nil
  | cons (s : Statement E) (rest : Statements E)

/-- The cases of a `switch` in order, then the default case where there is one. -/
inductive SwitchCases (E : Type u) where
  | noDefault
  | default (stmt : Statement E)
  | case (val : E) (stmt : Statement E) (rest : SwitchCases E)

end

/-- How a statement ends. -/
inductive Outcome (E : Type u) where
  | normal
  | broken
  | continued
  | returned (argument : Option E)
  | thrown

/-- What expressions do to a state. An evaluation without a value throws. -/
structure Semantics (E : Type u) (S : Type v) (V : Type w) where
  eval : E → S → S → Option V → Prop
  truth : V → Bool
  isEqual : V → V → Bool
  /-- The next round of a `foreach`: an element was assigned, or there is none left, or it throws. -/
  next : V → S → S → Option Bool → Prop
  /-- The exception is bound. -/
  caught : S → S

variable {E : Type u} {S : Type v} {V : Type w}

/-- The evaluation of an expression that may be absent. -/
def Semantics.evalOpt (sem : Semantics E S V) : Option E → S → S → Option Unit → Prop
  | none, s, s', r => s' = s ∧ r = some ()
  | some e, s, s', r => ∃ v, sem.eval e s s' v ∧ r = v.map fun _ => ()

/-- The value of a condition; an absent one holds. -/
def Semantics.test (sem : Semantics E S V) : Option E → S → S → Option Bool → Prop
  | none, s, s', r => s' = s ∧ r = some true
  | some e, s, s', r => ∃ v, sem.eval e s s' v ∧ r = v.map sem.truth

mutual

/-- The execution of a statement from one state to another, and how it ends. -/
inductive Exec (sem : Semantics E S V) : Statement E → S → Outcome E → S → Prop where
  | empty {s : S} : Exec sem .empty s .normal s
  | expr {e : E} {s s' : S} {v : V} : sem.eval e s s' (some v) → Exec sem (.expr e) s .normal s'
  | exprThrow {e : E} {s s' : S} : sem.eval e s s' none → Exec sem (.expr e) s .thrown s'
  | block {ss : Statements E} {s s' : S} {o : Outcome E} :
      ExecAll sem ss s o s' → Exec sem (.block ss) s o s'
  | ifThrow {c : E} {t : Statement E} {s s' : S} :
      sem.test (some c) s s' none → Exec sem (.ifThen c t) s .thrown s'
  | ifTrue {c : E} {t : Statement E} {s s₁ s' : S} {o : Outcome E} :
      sem.test (some c) s s₁ (some true) → Exec sem t s₁ o s' → Exec sem (.ifThen c t) s o s'
  | ifFalse {c : E} {t : Statement E} {s s' : S} :
      sem.test (some c) s s' (some false) → Exec sem (.ifThen c t) s .normal s'
  | ifElseThrow {c : E} {t e : Statement E} {s s' : S} :
      sem.test (some c) s s' none → Exec sem (.ifElse c t e) s .thrown s'
  | ifElseTrue {c : E} {t e : Statement E} {s s₁ s' : S} {o : Outcome E} :
      sem.test (some c) s s₁ (some true) → Exec sem t s₁ o s' → Exec sem (.ifElse c t e) s o s'
  | ifElseFalse {c : E} {t e : Statement E} {s s₁ s' : S} {o : Outcome E} :
      sem.test (some c) s s₁ (some false) → Exec sem e s₁ o s' → Exec sem (.ifElse c t e) s o s'
  | whileLoop {c : E} {b : Statement E} {s s' : S} {o : Outcome E} :
      ExecLoop sem (some c) none b s o s' → Exec sem (.whileLoop c b) s o s'
  | doWhile {c : E} {b : Statement E} {s s' : S} {o : Outcome E} :
      ExecRound sem (some c) none b s o s' → Exec sem (.doWhile b c) s o s'
  | forThrow {i c m : Option E} {b : Statement E} {s s' : S} :
      sem.evalOpt i s s' none → Exec sem (.forLoop i c m b) s .thrown s'
  | forLoop {i c m : Option E} {b : Statement E} {s s₁ s' : S} {o : Outcome E} :
      sem.evalOpt i s s₁ (some ()) → ExecLoop sem c m b s₁ o s' →
      Exec sem (.forLoop i c m b) s o s'
  | foreachThrow {e : E} {b : Statement E} {s s' : S} :
      sem.eval e s s' none → Exec sem (.foreach e b) s .thrown s'
  | foreach {e : E} {b : Statement E} {s s₁ s' : S} {v : V} {o : Outcome E} :
      sem.eval e s s₁ (some v) → ExecEach sem v b s₁ o s' → Exec sem (.foreach e b) s o s'
  | switchThrow {e : E} {cs : SwitchCases E} {s s' : S} :
      sem.eval e s s' none → Exec sem (.switch e cs) s .thrown s'
  | switchBroken {e : E} {cs : SwitchCases E} {s s₁ s' : S} {v : V} :
      sem.eval e s s₁ (some v) → ExecCases sem v cs s₁ .broken s' →
      Exec sem (.switch e cs) s .normal s'
  | switch {e : E} {cs : SwitchCases E} {s s₁ s' : S} {v : V} {o : Outcome E} :
      sem.eval e s s₁ (some v) → ExecCases sem v cs s₁ o s' → o ≠ .broken →
      Exec sem (.switch e cs) s o s'
  | tryDone {t c : Statement E} {s s' : S} {o : Outcome E} :
      Exec sem t s o s' → o ≠ .thrown → Exec sem (.tryCatch t c) s o s'
  | tryCaught {t c : Statement E} {s s₁ s' : S} {o : Outcome E} :
      Exec sem t s .thrown s₁ → Exec sem c (sem.caught s₁) o s' → Exec sem (.tryCatch t c) s o s'
  | breakStatement {s : S} : Exec sem .breakStatement s .broken s
  | continueStatement {s : S} : Exec sem .continueStatement s .continued s
  | returnStatement {a : Option E} {s s' : S} :
      sem.evalOpt a s s' (some ()) → Exec sem (.returnStatement a) s (.returned a) s'
  | returnThrow {a : Option E} {s s' : S} :
      sem.evalOpt a s s' none → Exec sem (.returnStatement a) s .thrown s'
  | throwStatement {e : E} {s s' : S} {r : Option V} :
      sem.eval e s s' r → Exec sem (.throwStatement e) s .thrown s'

/-- The statements of a block, up to the first one that does not complete normally. -/
inductive ExecAll (sem : Semantics E S V) : Statements E → S → Outcome E → S → Prop where
  | nil {s : S} : ExecAll sem .nil s .normal s
  | cons {t : Statement E} {rest : Statements E} {s s₁ s' : S} {o : Outcome E} :
      Exec sem t s .normal s₁ → ExecAll sem rest s₁ o s' → ExecAll sem (.cons t rest) s o s'
  | stop {t : Statement E} {rest : Statements E} {s s' : S} {o : Outcome E} :
      Exec sem t s o s' → o ≠ .normal → ExecAll sem (.cons t rest) s o s'

/-- The search for the case whose value is `v`. -/
inductive ExecCases (sem : Semantics E S V) : V → SwitchCases E → S → Outcome E → S → Prop where
  | noDefault {v : V} {s : S} : ExecCases sem v .noDefault s .normal s
  | default {v : V} {d : Statement E} {s s' : S} {o : Outcome E} :
      Exec sem d s o s' → ExecCases sem v (.default d) s o s'
  | valThrow {v : V} {e : E} {b : Statement E} {rest : SwitchCases E} {s s' : S} :
      sem.eval e s s' none → ExecCases sem v (.case e b rest) s .thrown s'
  | next {v w : V} {e : E} {b : Statement E} {rest : SwitchCases E} {s s₁ s' : S} {o : Outcome E} :
      sem.eval e s s₁ (some w) → sem.isEqual w v = false → ExecCases sem v rest s₁ o s' →
      ExecCases sem v (.case e b rest) s o s'
  | found {v w : V} {e : E} {b : Statement E} {rest : SwitchCases E} {s s₁ s' : S}
      {o : Outcome E} :
      sem.eval e s s₁ (some w) → sem.isEqual w v = true →
      ExecBodies sem (.case e b rest) s₁ o s' → ExecCases sem v (.case e b rest) s o s'

/-- The bodies from the case that was found on: without a break one falls through to the next. -/
inductive ExecBodies (sem : Semantics E S V) : SwitchCases E → S → Outcome E → S → Prop where
  | noDefault {s : S} : ExecBodies sem .noDefault s .normal s
  | default {d : Statement E} {s s' : S} {o : Outcome E} :
      Exec sem d s o s' → ExecBodies sem (.default d) s o s'
  | through {e : E} {b : Statement E} {rest : SwitchCases E} {s s₁ s' : S} {o : Outcome E} :
      Exec sem b s .normal s₁ → ExecBodies sem rest s₁ o s' →
      ExecBodies sem (.case e b rest) s o s'
  | stop {e : E} {b : Statement E} {rest : SwitchCases E} {s s' : S} {o : Outcome E} :
      Exec sem b s o s' → o ≠ .normal → ExecBodies sem (.case e b rest) s o s'

/-- A loop that tests its condition first. -/
inductive ExecLoop (sem : Semantics E S V) :
    Option E → Option E → Statement E → S → Outcome E → S → Prop where
  | testThrow {c m : Option E} {b : Statement E} {s s' : S} :
      sem.test c s s' none → ExecLoop sem c m b s .thrown s'
  | done {c m : Option E} {b : Statement E} {s s' : S} :
      sem.test c s s' (some false) → ExecLoop sem c m b s .normal s'
  | round {c m : Option E} {b : Statement E} {s s₁ s' : S} {o : Outcome E} :
      sem.test c s s₁ (some true) → ExecRound sem c m b s₁ o s' → ExecLoop sem c m b s o s'

/-- A round of a loop, after its condition, and the rounds behind it. -/
inductive ExecRound (sem : Semantics E S V) :
    Option E → Option E → Statement E → S → Outcome E → S → Prop where
  | broken {c m : Option E} {b : Statement E} {s s' : S} :
      Exec sem b s .broken s' → ExecRound sem c m b s .normal s'
  | returned {c m : Option E} {b : Statement E} {s s' : S} {a : Option E} :
      Exec sem b s (.returned a) s' → ExecRound sem c m b s (.returned a) s'
  | thrown {c m : Option E} {b : Statement E} {s s' : S} :
      Exec sem b s .thrown s' → ExecRound sem c m b s .thrown s'
  | modifierThrow {c m : Option E} {b : Statement E} {s s₁ s' : S} {o : Outcome E} :
      Exec sem b s o s₁ → o = .normal ∨ o = .continued → sem.evalOpt m s₁ s' none →
      ExecRound sem c m b s .thrown s'
  | again {c m : Option E} {b : Statement E} {s s₁ s₂ s' : S} {o o' : Outcome E} :
      Exec sem b s o s₁ → o = .normal ∨ o = .continued → sem.evalOpt m s₁ s₂ (some ()) →
      ExecLoop sem c m b s₂ o' s' → ExecRound sem c m b s o' s'

/-- The rounds of a `foreach`. -/
inductive ExecEach (sem : Semantics E S V) : V → Statement E → S → Outcome E → S → Prop where
  | nextThrow {v : V} {b : Statement E} {s s' : S} :
      sem.next v s s' none → ExecEach sem v b s .thrown s'
  | done {v : V} {b : Statement E} {s s' : S} :
      sem.next v s s' (some false) → ExecEach sem v b s .normal s'
  | broken {v : V} {b : Statement E} {s s₁ s' : S} :
      sem.next v s s₁ (some true) → Exec sem b s₁ .broken s' → ExecEach sem v b s .normal s'
  | stop {v : V} {b : Statement E} {s s₁ s' : S} {o : Outcome E} :
      sem.next v s s₁ (some true) → Exec sem b s₁ o s' →
      (∃ a, o = .returned a) ∨ o = .thrown → ExecEach sem v b s o s'
  | again {v : V} {b : Statement E} {s s₁ s₂ s' : S} {o o' : Outcome E} :
      sem.next v s s₁ (some true) → Exec sem b s₁ o s₂ → o = .normal ∨ o = .continued →
      ExecEach sem v b s₂ o' s' → ExecEach sem v b s o' s'

end

end Quirrel.StaticAnalyzer
