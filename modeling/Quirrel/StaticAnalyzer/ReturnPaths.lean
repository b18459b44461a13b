import Mathlib.Data.UInt
import Quirrel.StaticAnalyzer.Statements

/-!
# Return paths

`FunctionReturnTypeEvaluator` at statements: the flags of the returned values and whether all paths
return. A `switch` is taken to return when its cases and its default case do, where a case may also
end without a return and without a `break` as its last statement. A `break` deeper in a case leaves
the switch all the same, and then the function falls off its end (`switchBody_breaks_out`). Breaking out of a
switch in tail position is the only way to do so: `allPathsReturn_iff`.
-/

set_option autoImplicit false

namespace Quirrel.StaticAnalyzer

universe u v w

variable {E : Type u} {S : Type v} {V : Type w}

/-! ## `FunctionReturnTypeEvaluator` -/

/-- `RT_NOTHING` -/
def rtNothing : UInt32 := 1

/-- `RT_THROW` -/
def rtThrow : UInt32 := 1024

/-- What the evaluator says of a statement: the types it may return and whether all its paths
return. -/
structure StmtEvalResult where
  flags : UInt32
  allPathsReturn : Bool
  deriving DecidableEq

/-- All paths return. -/
def StmtEvalResult.returns (f : UInt32) : StmtEvalResult := ⟨f, true⟩

/-- Some path runs on. -/
def StmtEvalResult.fallsThrough (f : UInt32) : StmtEvalResult := ⟨f, false⟩

mutual

/-- `unwrapLastStatement` -/
def unwrapLastStatement : Statement E → Option (Statement E)
  | .block ss => unwrapLast ss
  | s => some s

/-- `unwrapLastStatement(stmts.back())`, where there is one. -/
def unwrapLast : Statements E → Option (Statement E)
  | .nil => none
  | .cons s .nil => unwrapLastStatement s
  | .cons _ (.cons s rest) => unwrapLast (.cons s rest)

end

/-- `!last || last->op() != TO_BREAK` is false. -/
def endsWithBreak (s : Statement E) : Bool :=
  match unwrapLastStatement s with
  | some .breakStatement => true
  | _ => false

/-- `stmt->op() == TO_EMPTY` -/
def Statement.isEmpty : Statement E → Bool
  | .empty => true
  | _ => false

section Evaluator

variable (evalExpr : E → UInt32)

/-- `evalReturn` -/
def evalReturn : Option E → StmtEvalResult
  | none => .returns rtNothing
  | some arg => .returns (evalExpr arg)

mutual

/-- `evalStmt` -/
def evalStmt : Statement E → StmtEvalResult
  | .returnStatement arg => evalReturn evalExpr arg
  | .throwStatement _ => .returns rtThrow
  | .forLoop _ _ _ body => .fallsThrough (evalStmt body).flags
  | .foreach _ body => .fallsThrough (evalStmt body).flags
  | .whileLoop _ body => .fallsThrough (evalStmt body).flags
  | .doWhile body _ => .fallsThrough (evalStmt body).flags
  | .ifThen _ thenBranch => .fallsThrough (evalStmt thenBranch).flags
  | .ifElse _ thenBranch elseBranch =>
    let thenResult := evalStmt thenBranch
    let elseResult := evalStmt elseBranch
    ⟨thenResult.flags ||| elseResult.flags,
      thenResult.allPathsReturn && elseResult.allPathsReturn⟩
  | .switch _ cases => evalSwitch cases 0 true
  | .block statements => evalBlock statements 0 false
  | .tryCatch tryStatement catchStatement =>
    let tryResult := evalStmt tryStatement
    let catchResult := evalStmt catchStatement
    ⟨tryResult.flags ||| catchResult.flags,
      tryResult.allPathsReturn && catchResult.allPathsReturn⟩
  | .breakStatement => .fallsThrough 0
  | .continueStatement => .fallsThrough 0
  | .empty => .fallsThrough 0
  | .expr _ => .fallsThrough 0

/-- The loop of `evalBlock`, with its accumulators. -/
def evalBlock : Statements E → UInt32 → Bool → StmtEvalResult
  | .nil, accumulatedFlags, lastReturns => ⟨accumulatedFlags, lastReturns⟩
  | .cons stmt rest, accumulatedFlags, lastReturns =>
    let result := evalStmt stmt
    if stmt.isEmpty then evalBlock rest accumulatedFlags lastReturns
    else evalBlock rest (accumulatedFlags ||| result.flags) result.allPathsReturn

/-- The loop of `evalSwitch` and its default case, with the accumulators. -/
def evalSwitch : SwitchCases E → UInt32 → Bool → StmtEvalResult
  | .case _ stmt rest, accumulatedFlags, allCasesReturn =>
    let caseResult := evalStmt stmt
    let accumulatedFlags := accumulatedFlags ||| caseResult.flags
    if !caseResult.allPathsReturn && !endsWithBreak stmt then
      -- fall through
      evalSwitch rest accumulatedFlags allCasesReturn
    else evalSwitch rest accumulatedFlags (allCasesReturn && caseResult.allPathsReturn)
  | .default stmt, accumulatedFlags, allCasesReturn =>
    let defaultResult := evalStmt stmt
    ⟨accumulatedFlags ||| defaultResult.flags, allCasesReturn && defaultResult.allPathsReturn⟩
  | .noDefault, accumulatedFlags, _ => ⟨accumulatedFlags, false⟩

end

/-- `compute`: the mask, and whether all paths return. -/
def compute (body : Statement E) : UInt32 × Bool :=
  let result := evalStmt evalExpr body
  (if result.allPathsReturn then result.flags else result.flags ||| rtNothing,
    result.allPathsReturn)

end Evaluator

/-! ## The returns of a statement -/

mutual

/-- The statement holds this return statement. -/
def Statement.HasReturn (a : Option E) : Statement E → Prop
  | .returnStatement b => b = a
  | .block ss => ss.HasReturn a
  | .ifThen _ t => t.HasReturn a
  | .ifElse _ t e => t.HasReturn a ∨ e.HasReturn a
  | .whileLoop _ b => b.HasReturn a
  | .doWhile b _ => b.HasReturn a
  | .forLoop _ _ _ b => b.HasReturn a
  | .foreach _ b => b.HasReturn a
  | .switch _ cs => cs.HasReturn a
  | .tryCatch t c => t.HasReturn a ∨ c.HasReturn a
  | .empty | .expr _ | .breakStatement | .continueStatement | .throwStatement _ => False

/-- Whether such a `return` stands in the statements. -/
def Statements.HasReturn (a : Option E) : Statements E → Prop
  | .nil => False
  | .cons s rest => s.HasReturn a ∨ rest.HasReturn a

/-- Whether such a `return` stands in the cases. -/
def SwitchCases.HasReturn (a : Option E) : SwitchCases E → Prop
  | .noDefault => False
  | .default d => d.HasReturn a
  | .case _ b rest => b.HasReturn a ∨ rest.HasReturn a

end

/-- The flags `f` are among those of the mask. -/
def Contributes (f mask : UInt32) : Prop := f ||| mask = mask

namespace Contributes

variable {f m : UInt32}

theorem or_left (h : Contributes f m) (n : UInt32) : Contributes f (m ||| n) := by
  rw [Contributes, ← UInt32.or_assoc, h]

theorem or_right (h : Contributes f m) (n : UInt32) : Contributes f (n ||| m) := by
  rw [UInt32.or_comm n m]
  exact h.or_left n

theorem refl (f : UInt32) : Contributes f f := UInt32.or_self

end Contributes

section Flags

variable (evalExpr : E → UInt32)

mutual

/-- The accumulated flags stay, and every return of the statements joins them. -/
theorem evalStmt_contributes {a : Option E} (s : Statement E) (h : s.HasReturn a) :
    Contributes (evalReturn evalExpr a).flags (evalStmt evalExpr s).flags := by
  cases s with
  | returnStatement b =>
    obtain rfl : b = a := h
    exact .refl _
  | block ss => exact (evalBlock_contributes ss 0 false).2 h
  | ifThen c t => exact evalStmt_contributes t h
  | ifElse c t e =>
    rcases h with h | h
    · exact (evalStmt_contributes t h).or_left _
    · exact (evalStmt_contributes e h).or_right _
  | whileLoop c b => exact evalStmt_contributes b h
  | doWhile b c => exact evalStmt_contributes b h
  | forLoop i c m b => exact evalStmt_contributes b h
  | foreach e b => exact evalStmt_contributes b h
  | switch e cs => exact (evalSwitch_contributes cs 0 true).2 h
  | tryCatch t c =>
    rcases h with h | h
    · exact (evalStmt_contributes t h).or_left _
    · exact (evalStmt_contributes c h).or_right _
  | empty | expr _ | breakStatement | continueStatement | throwStatement _ => exact h.elim

theorem evalBlock_contributes {a : Option E} (ss : Statements E) (acc : UInt32) (last : Bool) :
    (∀ f, Contributes f acc → Contributes f (evalBlock evalExpr ss acc last).flags) ∧
      (ss.HasReturn a →
        Contributes (evalReturn evalExpr a).flags (evalBlock evalExpr ss acc last).flags) := by
  cases ss with
  | nil => exact ⟨fun f hf => hf, fun h => h.elim⟩
  | cons s rest =>
    rw [evalBlock]
    by_cases hs : s.isEmpty = true
    · obtain ⟨hacc, hrest⟩ := evalBlock_contributes (a := a) rest acc last
      rw [if_pos hs]
      refine ⟨hacc, fun h => h.elim (fun h => ?_) hrest⟩
      -- an empty statement holds no return
      cases s <;> first | exact h.elim | exact absurd hs Bool.false_ne_true
    · obtain ⟨hacc, hrest⟩ := evalBlock_contributes (a := a) rest
        (acc ||| (evalStmt evalExpr s).flags) (evalStmt evalExpr s).allPathsReturn
      rw [if_neg hs]
      refine ⟨fun f hf => hacc f (hf.or_left _), fun h => h.elim (fun h => ?_) hrest⟩
      exact hacc _ ((evalStmt_contributes s h).or_right acc)

theorem evalSwitch_contributes {a : Option E} (cs : SwitchCases E) (acc : UInt32) (all : Bool) :
    (∀ f, Contributes f acc → Contributes f (evalSwitch evalExpr cs acc all).flags) ∧
      (cs.HasReturn a →
        Contributes (evalReturn evalExpr a).flags (evalSwitch evalExpr cs acc all).flags) := by
  cases cs with
  | noDefault => exact ⟨fun f hf => hf, fun h => h.elim⟩
  | default d =>
    exact ⟨fun f hf => hf.or_left _, fun h => (evalStmt_contributes d h).or_right acc⟩
  | case val b rest =>
    have hrest (all' : Bool) := evalSwitch_contributes (a := a) rest
      (acc ||| (evalStmt evalExpr b).flags) all'
    have hboth (all' : Bool) :
        (∀ f, Contributes f acc → Contributes f (evalSwitch evalExpr rest
            (acc ||| (evalStmt evalExpr b).flags) all').flags) ∧
          ((SwitchCases.case val b rest).HasReturn a →
            Contributes (evalReturn evalExpr a).flags (evalSwitch evalExpr rest
              (acc ||| (evalStmt evalExpr b).flags) all').flags) := by
      obtain ⟨hacc, hr⟩ := hrest all'
      refine ⟨fun f hf => hacc f (hf.or_left _), fun h => h.elim (fun h => ?_) hr⟩
      exact hacc _ ((evalStmt_contributes b h).or_right acc)
    rw [evalSwitch]
    split
    · exact hboth all
    · exact hboth _

end

/-- Every return statement of a function body contributes its flags to the mask. -/
theorem compute_contributes {a : Option E} {body : Statement E} (h : body.HasReturn a) :
    Contributes (evalReturn evalExpr a).flags (compute evalExpr body).1 := by
  have hbody := evalStmt_contributes evalExpr body h
  unfold compute
  dsimp only
  split
  · exact hbody
  · exact hbody.or_left _

end Flags

/-- A switch that is reported to return is so without its first case too. -/
theorem evalSwitch_case {evalExpr : E → UInt32} {e : E} {b : Statement E} {rest : SwitchCases E}
    {acc : UInt32} {all : Bool}
    (h : (evalSwitch evalExpr (.case e b rest) acc all).allPathsReturn = true) :
    ∃ all', (evalSwitch evalExpr rest (acc ||| (evalStmt evalExpr b).flags)
      all').allPathsReturn = true := by
  rw [evalSwitch] at h
  split at h
  · exact ⟨_, h⟩
  · exact ⟨_, h⟩

/-! ## Breaking out of a switch in tail position -/

section Executions

variable (sem : Semantics E S V)

/-- All statements are empty. -/
def Statements.allEmpty : Statements E → Bool
  | .nil => true
  | .cons s rest => s.isEmpty && rest.allEmpty

/-- From the state `s`, the bodies of the cases complete and reach the default case in the state
`s'`. -/
inductive FallsToDefault : SwitchCases E → S → Statement E → S → Prop where
  | default {d : Statement E} {s : S} : FallsToDefault (.default d) s d s
  | through {e : E} {b d : Statement E} {rest : SwitchCases E} {s s₁ s' : S} :
      Exec sem b s .normal s₁ → FallsToDefault rest s₁ d s' →
      FallsToDefault (.case e b rest) s d s'

/-- From the state `s`, the search for the case of `v` leads to the default case in the state
`s'`. -/
inductive ReachesDefault : V → SwitchCases E → S → Statement E → S → Prop where
  | default {v : V} {d : Statement E} {s : S} : ReachesDefault v (.default d) s d s
  | next {v w : V} {e : E} {b d : Statement E} {rest : SwitchCases E} {s s₁ s' : S} :
      sem.eval e s s₁ (some w) → sem.isEqual w v = false → ReachesDefault v rest s₁ d s' →
      ReachesDefault v (.case e b rest) s d s'
  | found {v w : V} {e : E} {b d : Statement E} {rest : SwitchCases E} {s s₁ s' : S} :
      sem.eval e s s₁ (some w) → sem.isEqual w v = true →
      FallsToDefault sem (.case e b rest) s₁ d s' → ReachesDefault v (.case e b rest) s d s'

/-- From the state `s`, the last statement of the block that is not empty is `t`, and it is reached in
the state `s'`. -/
inductive ReachesLast : Statements E → S → Statement E → S → Prop where
  | last {t : Statement E} {rest : Statements E} {s : S} :
      rest.allEmpty = true → ReachesLast (.cons t rest) s t s
  | later {t u : Statement E} {rest : Statements E} {s s₁ s' : S} :
      Exec sem t s .normal s₁ → ReachesLast rest s₁ u s' → ReachesLast (.cons t rest) s u s'

/-- An execution of the statement from the state `s` reaches a switch in tail position and leaves it
by a break of one of its cases. -/
inductive BreaksOut : Statement E → S → Prop where
  | block {ss : Statements E} {t : Statement E} {s s₁ : S} :
      ReachesLast sem ss s t s₁ → BreaksOut t s₁ → BreaksOut (.block ss) s
  | ifThen {c : E} {t : Statement E} {s s₁ : S} :
      sem.test (some c) s s₁ (some true) → BreaksOut t s₁ → BreaksOut (.ifThen c t) s
  | thenBranch {c : E} {t e : Statement E} {s s₁ : S} :
      sem.test (some c) s s₁ (some true) → BreaksOut t s₁ → BreaksOut (.ifElse c t e) s
  | elseBranch {c : E} {t e : Statement E} {s s₁ : S} :
      sem.test (some c) s s₁ (some false) → BreaksOut e s₁ → BreaksOut (.ifElse c t e) s
  | switch {e : E} {cs : SwitchCases E} {s s₁ s' : S} {v : V} :
      sem.eval e s s₁ (some v) → ExecCases sem v cs s₁ .broken s' → BreaksOut (.switch e cs) s
  | default {e : E} {cs : SwitchCases E} {d : Statement E} {s s₁ s₂ : S} {v : V} :
      sem.eval e s s₁ (some v) → ReachesDefault sem v cs s₁ d s₂ → BreaksOut d s₂ →
      BreaksOut (.switch e cs) s
  | tryStatement {t c : Statement E} {s : S} : BreaksOut t s → BreaksOut (.tryCatch t c) s
  | catchStatement {t c : Statement E} {s s₁ : S} :
      Exec sem t s .thrown s₁ → BreaksOut c (sem.caught s₁) → BreaksOut (.tryCatch t c) s

variable {sem}

/-! ### A function body that breaks out completes -/

theorem exec_allEmpty {ss : Statements E} (h : ss.allEmpty = true) (s : S) :
    ExecAll sem ss s .normal s := by
  match ss with
  | .nil => exact .nil
  | .cons t rest =>
    obtain ⟨ht, hrest⟩ := (Bool.and_eq_true _ _).mp h
    cases t <;> first
      | exact .cons .empty (exec_allEmpty hrest s)
      | exact absurd ht Bool.false_ne_true

theorem FallsToDefault.exec {cs : SwitchCases E} {d : Statement E} {s s₁ s' : S} {o : Outcome E}
    (h : FallsToDefault sem cs s d s₁) (hd : Exec sem d s₁ o s') : ExecBodies sem cs s o s' := by
  induction h with
  | default => exact .default hd
  | through hb _ ih => exact .through hb (ih hd)

theorem ReachesDefault.exec {v : V} {cs : SwitchCases E} {d : Statement E} {s s₁ s' : S}
    {o : Outcome E} (h : ReachesDefault sem v cs s d s₁) (hd : Exec sem d s₁ o s') :
    ExecCases sem v cs s o s' := by
  induction h with
  | default => exact .default hd
  | next hval hne _ ih => exact .next hval hne (ih hd)
  | found hval heq hfall => exact .found hval heq (hfall.exec hd)

theorem ReachesLast.exec {ss : Statements E} {t : Statement E} {s s₁ s' : S}
    (h : ReachesLast sem ss s t s₁) (ht : Exec sem t s₁ .normal s') :
    ExecAll sem ss s .normal s' := by
  induction h with
  | last hrest => exact .cons ht (exec_allEmpty hrest s')
  | later hfirst _ ih => exact .cons hfirst (ih ht)

theorem BreaksOut.completes {t : Statement E} {s : S} (h : BreaksOut sem t s) :
    ∃ s', Exec sem t s .normal s' := by
  induction h with
  | block hlast _ ih =>
    obtain ⟨s', hs⟩ := ih
    exact ⟨s', .block (hlast.exec hs)⟩
  | ifThen hc _ ih =>
    obtain ⟨s', hs⟩ := ih
    exact ⟨s', .ifTrue hc hs⟩
  | thenBranch hc _ ih =>
    obtain ⟨s', hs⟩ := ih
    exact ⟨s', .ifElseTrue hc hs⟩
  | elseBranch hc _ ih =>
    obtain ⟨s', hs⟩ := ih
    exact ⟨s', .ifElseFalse hc hs⟩
  | switch he hb => exact ⟨_, .switchBroken he hb⟩
  | default he hd _ ih =>
    obtain ⟨s', hs⟩ := ih
    exact ⟨s', .switch he (hd.exec hs) nofun⟩
  | tryStatement _ ih =>
    obtain ⟨s', hs⟩ := ih
    exact ⟨s', .tryDone hs nofun⟩
  | catchStatement ht _ ih =>
    obtain ⟨s', hs⟩ := ih
    exact ⟨s', .tryCaught ht hs⟩

/-! ### A reported body that completes breaks out -/

variable {evalExpr : E → UInt32}

mutual

theorem breaksOut_of_completes {t : Statement E} {s s' : S}
    (h : (evalStmt evalExpr t).allPathsReturn = true) (hx : Exec sem t s .normal s') :
    BreaksOut sem t s := by
  cases t with
  | block ss =>
    cases hx with
    | block hx =>
      rcases reachesLast_of_completes h hx with ⟨u, s₁, hu, hb⟩ | ⟨-, hlast⟩
      · exact .block hu hb
      · exact absurd hlast Bool.false_ne_true
  | ifElse c t e =>
    obtain ⟨ht, he⟩ := (Bool.and_eq_true _ _).mp h
    cases hx with
    | ifElseTrue hc hx => exact .thenBranch hc (breaksOut_of_completes ht hx)
    | ifElseFalse hc hx => exact .elseBranch hc (breaksOut_of_completes he hx)
  | switch e cs =>
    cases hx with
    | switchBroken he hx => exact .switch he hx
    | switch he hx _ =>
      obtain ⟨d, s₁, hd, hb⟩ := (reachesDefault_of_completes h).2 _ _ _ hx
      exact .default he hd hb
  | tryCatch t c =>
    obtain ⟨ht, hc⟩ := (Bool.and_eq_true _ _).mp h
    cases hx with
    | tryDone hx _ => exact .tryStatement (breaksOut_of_completes ht hx)
    | tryCaught hthrow hx => exact .catchStatement hthrow (breaksOut_of_completes hc hx)
  | returnStatement a => cases hx
  | throwStatement e => cases hx
  | empty | expr _ | ifThen _ _ | whileLoop _ _ | doWhile _ _ | forLoop _ _ _ _ | foreach _ _
  | breakStatement | continueStatement => exact absurd h Bool.false_ne_true

/-- The block returns because of its last statement that is not empty. -/
theorem reachesLast_of_completes {ss : Statements E} {acc : UInt32} {last : Bool} {s s' : S}
    (h : (evalBlock evalExpr ss acc last).allPathsReturn = true)
    (hx : ExecAll sem ss s .normal s') :
    (∃ t s₁, ReachesLast sem ss s t s₁ ∧ BreaksOut sem t s₁) ∨
      (ss.allEmpty = true ∧ last = true) := by
  cases ss with
  | nil => exact .inr ⟨rfl, h⟩
  | cons t rest =>
    rw [evalBlock] at h
    cases hx with
    | stop _ hne => exact absurd rfl hne
    | cons ht hx =>
      by_cases hs : t.isEmpty = true
      · rw [if_pos hs] at h
        rcases reachesLast_of_completes h hx with ⟨u, s₁, hu, hb⟩ | ⟨hrest, hlast⟩
        · exact .inl ⟨u, s₁, .later ht hu, hb⟩
        · exact .inr ⟨(Bool.and_eq_true _ _).mpr ⟨hs, hrest⟩, hlast⟩
      · rw [if_neg hs] at h
        rcases reachesLast_of_completes h hx with ⟨u, s₁, hu, hb⟩ | ⟨hrest, hlast⟩
        · exact .inl ⟨u, s₁, .later ht hu, hb⟩
        · exact .inl ⟨t, s, .last hrest, breaksOut_of_completes hlast ht⟩

/-- Without a break a switch completes only through its default case. -/
theorem reachesDefault_of_completes {cs : SwitchCases E} {acc : UInt32} {all : Bool}
    (h : (evalSwitch evalExpr cs acc all).allPathsReturn = true) :
    (∀ s s', ExecBodies sem cs s .normal s' →
        ∃ d s₁, FallsToDefault sem cs s d s₁ ∧ BreaksOut sem d s₁) ∧
      ∀ v s s', ExecCases sem v cs s .normal s' →
        ∃ d s₁, ReachesDefault sem v cs s d s₁ ∧ BreaksOut sem d s₁ := by
  cases cs with
  | noDefault => exact absurd h Bool.false_ne_true
  | default d =>
    have hd : (evalStmt evalExpr d).allPathsReturn = true := ((Bool.and_eq_true _ _).mp h).2
    constructor
    · intro s s' hx
      cases hx with
      | default hx => exact ⟨d, s, .default, breaksOut_of_completes hd hx⟩
    · intro v s s' hx
      cases hx with
      | default hx => exact ⟨d, s, .default, breaksOut_of_completes hd hx⟩
  | case e b rest =>
    obtain ⟨all', hrest⟩ := evalSwitch_case h
    obtain ⟨hbodies, hcases⟩ := reachesDefault_of_completes hrest
    have hfall : ∀ s s', ExecBodies sem (.case e b rest) s .normal s' →
        ∃ d s₁, FallsToDefault sem (.case e b rest) s d s₁ ∧ BreaksOut sem d s₁ := by
      intro s s' hx
      cases hx with
      | stop _ hne => exact absurd rfl hne
      | through hb hx =>
        obtain ⟨d, s₁, hd, hout⟩ := hbodies _ _ hx
        exact ⟨d, s₁, .through hb hd, hout⟩
    refine ⟨hfall, fun v s s' hx => ?_⟩
    cases hx with
    | next hval hne hx =>
      obtain ⟨d, s₁, hd, hout⟩ := hcases v _ _ hx
      exact ⟨d, s₁, .next hval hne hd, hout⟩
    | found hval heq hx =>
      obtain ⟨d, s₁, hd, hout⟩ := hfall _ _ hx
      exact ⟨d, s₁, .found hval heq hd, hout⟩

end

end Executions

/-! ## The report -/

/-- Every return statement contributes its flags to the mask. When all paths are reported to return,
no execution of the body completes normally exactly when none leaves a switch in tail position by a
break. -/
theorem allPathsReturn_iff (sem : Semantics E S V) (evalExpr : E → UInt32) (body : Statement E) :
    (∀ a, body.HasReturn a →
        Contributes (evalReturn evalExpr a).flags (compute evalExpr body).1) ∧
      ((compute evalExpr body).2 = true →
        ((∀ s s', ¬ Exec sem body s .normal s') ↔ ∀ s, ¬ BreaksOut sem body s)) := by
  refine ⟨fun a ha => compute_contributes evalExpr ha, fun h => ⟨fun hno s hb => ?_, ?_⟩⟩
  · obtain ⟨s', hx⟩ := hb.completes
    exact hno s s' hx
  · intro hno s s' hx
    exact hno s (breaksOut_of_completes h hx)

/-- Expressions that are constants. -/
def constants : Semantics Bool Unit Bool where
  eval e s s' r := s' = s ∧ r = some e
  truth v := v
  isEqual v w := v == w
  next _ s s' r := s' = s ∧ r = some false
  caught s := s

theorem allPathsReturn_iff_branches :
    ∀ s s', ¬ Exec constants (.ifElse true (.returnStatement none) (.throwStatement false)) s
      .normal s' := by
  refine ((allPathsReturn_iff constants (fun _ => 8) _).2 (by decide)).mpr fun s hb => ?_
  cases hb with
  | thenBranch _ hb => exact nomatch hb
  | elseBranch _ hb => exact nomatch hb

/-- `switch (true) { case true: if (true) break; return true; default: return false }` -/
def switchBody : Statement Bool :=
  .block (.cons (.switch true
    (.case true
      (.block (.cons (.ifThen true .breakStatement) (.cons (.returnStatement (some true)) .nil)))
      (.default (.block (.cons (.returnStatement (some false)) .nil))))) .nil)

/-- All paths are reported to return, and the break before the return makes the body complete. -/
theorem switchBody_breaks_out :
    (compute (fun _ => 8) switchBody).2 = true ∧
      Exec constants switchBody () .normal () := by
  refine ⟨by decide, .block (.cons (.switchBroken (v := true) ⟨rfl, rfl⟩ ?_) .nil)⟩
  refine .found ⟨rfl, rfl⟩ rfl (.stop (.block (.stop ?_ nofun)) nofun)
  exact .ifTrue ⟨some true, ⟨rfl, rfl⟩, rfl⟩ .breakStatement

end Quirrel.StaticAnalyzer
