import Quirrel.Directives.Scopes

set_option autoImplicit false

/-!
# When the parser and the code generator agree on the features

`oneScope_iff`: every token, node and compiled node has the features of its scope exactly
in the programs whose scopes end with the features that they began with, and whose hoisted
functions go to places with the features that they come from.
-/

namespace Quirrel.Directives

open Quirrel.Lib

/-! ## The code generator -/

mutual

/-- Each function in the part is compiled where the features are those of its own place. -/
def PlacedPart (marks : List LangFeatures) : Part → LangFeatures → Prop
  | .token, _ => True
  | .node parts, f => PlacedParts marks parts f
  | .function hoisted params body, f =>
    placeOf marks f hoisted = f ∧ PlacedParts (f :: marks) params f ∧ PlacedBody marks body f
  | .lambda hoisted params expr, f =>
    placeOf marks f hoisted = f ∧ PlacedParts (f :: marks) params f ∧
      PlacedParts (f :: marks) expr f
  | .codeBlock body, f => PlacedStatements marks body f
  | .ifLikeBlock _ body, f => PlacedStatements marks body f
  | .statements body, f => PlacedStatements marks body f
  | .statement stmt, f => PlacedStatement marks stmt f

/-- Every part is placed. -/
def PlacedParts (marks : List LangFeatures) : List Part → LangFeatures → Prop
  | [], _ => True
  | part :: rest, f => PlacedPart marks part f ∧ PlacedParts marks rest f

/-- What a statement holds is placed. -/
def PlacedStatement (marks : List LangFeatures) : Stmt → LangFeatures → Prop
  | .directive _, _ => True
  | .block body, f => PlacedStatements marks body f
  | .other parts, f => PlacedParts marks parts f

/-- Every statement is placed where it stands. -/
def PlacedStatements (marks : List LangFeatures) : List Stmt → LangFeatures → Prop
  | [], _ => True
  | stmt :: rest, f => PlacedStatement marks stmt f ∧ PlacedStatements marks rest (stmt.next f)

/-- `PlacedStatement` for the statements right in a function, each with the features in front of
it as the nearest mark. -/
def PlacedBody (marks : List LangFeatures) : List Stmt → LangFeatures → Prop
  | [], _ => True
  | stmt :: rest, f => PlacedStatement (f :: marks) stmt f ∧ PlacedBody marks rest (stmt.next f)

end

/-- The node of a function has the features that its state starts with. -/
theorem visitFunction_visits {hoisted : Option Nat} {marks : List LangFeatures}
    {params body : LangFeatures → LangFeatures → Trace LangFeatures}
    {S₁ S₂ : LangFeatures → Trace LangFeatures} {L₁ L₂ : LangFeatures → Prop}
    {H₁ H₂ : LangFeatures → LangFeatures → Prop}
    (h₁ : ∀ g, VisitsAs (params g) S₁ L₁ (H₁ g)) (h₂ : ∀ g, VisitsAs (body g) S₂ L₂ (H₂ g))
    (hafter₁ : ∀ f, (S₁ f).after = f) (hafter₂ : ∀ f, (S₂ f).after = f) :
    VisitsAs
      (fun f =>
        let inherited := placeOf marks f hoisted
        let visited := visitFunction (params inherited) (body inherited) inherited
        if hoisted.isSome then visited.restore f else visited)
      (fun f => ((S₁ f).andThen S₂).done) (fun f => L₁ f ∧ L₂ f)
      fun f => placeOf marks f hoisted = f ∧ H₁ f f ∧ H₂ f f := by
  have hvisited : ∀ f, (let inherited := placeOf marks f hoisted
      let visited := visitFunction (params inherited) (body inherited) inherited
      if hoisted.isSome then visited.restore f else visited).nodes
        = (params (placeOf marks f hoisted) (placeOf marks f hoisted)).nodes ++
          ((body (placeOf marks f hoisted) (placeOf marks f hoisted)).nodes ++
            [placeOf marks f hoisted]) := by
    intro f
    cases hoisted <;> rfl
  have hscoped : ∀ f, (((S₁ f).andThen S₂).done).nodes
      = (S₁ f).nodes ++ ((S₂ f).nodes ++ [f]) := by
    intro f
    simp only [Trace.done, Trace.andThen, hafter₁, hafter₂, List.append_assoc]
  refine ⟨fun f g => ?_, fun f hl => ?_, fun f hl => ?_⟩
  · rw [hvisited, hscoped]
    simp only [List.length_append, (h₁ _).length _ g, (h₂ _).length _ g, List.length_singleton]
  · have hspec : (((S₁ f).andThen S₂).done).after = f := by
      show (S₂ (S₁ f).after).after = f
      rw [hafter₁, hafter₂]
    rw [hspec]
    cases hoisted with
    | some k => rfl
    | none => exact ((h₁ f).after f hl.1).trans (hafter₁ f)
  · rw [hvisited, hscoped]
    by_cases hplace : placeOf marks f hoisted = f
    · rw [hplace, ← (h₁ f).exact f hl.1, ← (h₂ f).exact f hl.2]
      constructor
      · intro hnodes
        obtain ⟨hn₁, hrest⟩ := List.append_inj hnodes ((h₁ f).length f f)
        exact ⟨rfl, hn₁, List.append_inj_left hrest ((h₂ f).length f f)⟩
      · rintro ⟨-, hn₁, hn₂⟩
        rw [hn₁, hn₂]
    · -- The node of the function itself shows the other features.
      constructor
      · intro hnodes
        have hrest := List.append_inj_right hnodes ((h₁ _).length _ f)
        have hlast := List.append_inj_right hrest ((h₂ _).length _ f)
        exact absurd (List.singleton_inj.mp hlast) hplace
      · exact fun h => absurd h.1 hplace

mutual

theorem visitsPart : ∀ (part : Part) (marks : List LangFeatures),
    VisitsAs (visitPart marks part) (scopedPart part) (LevelPart part) (PlacedPart marks part)
  | .token, _ => VisitsAs.start (fun _ => rfl) fun _ => rfl
  | .node parts, marks => (visitsParts parts marks).done
  | .function hoisted params body, marks => by
    have hbody : ∀ g : LangFeatures, VisitsAs (fun f => (visitBody marks body f).done)
        (fun f => ((Trace.enclosed (fun f => scopedStatements body f) f).restore f).done)
        (fun f => LevelStatements body f ∧ endOf body f = f) (PlacedBody marks body) :=
      fun _ => (visitsBody body marks).enclosed.scope.of_iff
        (fun f => (level_iff f).symm) fun _ => Iff.rfl
    exact visitFunction_visits (fun g => visitsParts params (g :: marks)) hbody
      (scopedParts_after params) fun _ => rfl
  | .lambda hoisted params expr, marks => by
    have hexpr : ∀ g : LangFeatures, VisitsAs (fun f => visitParts (f :: marks) expr f)
        (scopedParts expr) (LevelParts expr) fun f => PlacedParts (f :: marks) expr f :=
      fun _ => VisitsAs.of_forall fun f => visitsParts expr (f :: marks)
    exact visitFunction_visits (fun g => visitsParts params (g :: marks)) hexpr
      (scopedParts_after params) (scopedParts_after expr)
  | .codeBlock body, marks =>
    (visitsStatements body marks).enclosed.scope.of_iff (fun f => (level_iff f).symm)
      fun _ => Iff.rfl
  | .ifLikeBlock true body, marks =>
    (visitsStatements body marks).enclosed.scope.of_iff (fun f => (level_iff f).symm)
      fun _ => Iff.rfl
  | .ifLikeBlock false body, marks =>
    (visitsStatements body marks).scope.of_iff (fun f => (level_iff f).symm) fun _ => Iff.rfl
  | .statements body, marks =>
    (visitsStatements body marks).scope.of_iff (fun f => (level_iff f).symm) fun _ => Iff.rfl
  | .statement stmt, marks => by
    refine (visitsStatement stmt marks).scope.of_iff (fun f => ?_) fun _ => Iff.rfl
    rw [scopedStatement_after]
    exact Iff.rfl

theorem visitsParts : ∀ (parts : List Part) (marks : List LangFeatures),
    VisitsAs (visitParts marks parts) (scopedParts parts) (LevelParts parts)
      (PlacedParts marks parts)
  | [], _ => VisitsAs.start (fun _ => rfl) fun _ => rfl
  | part :: rest, marks => by
    refine ((visitsPart part marks).andThen (visitsParts rest marks)).of_iff (fun f => ?_)
      fun f => ?_
    · rw [scopedPart_after]
      exact Iff.rfl
    · rw [scopedPart_after]
      exact Iff.rfl

theorem visitsStatement : ∀ (stmt : Stmt) (marks : List LangFeatures),
    VisitsAs (visitStatement marks stmt) (scopedStatement stmt) (LevelStatement stmt)
      (PlacedStatement marks stmt)
  | .directive d, _ => VisitsAs.change d.apply
  | .block body, marks =>
    (visitsStatements body marks).enclosed.scope.of_iff (fun f => (level_iff f).symm)
      fun _ => Iff.rfl
  | .other parts, marks => (visitsParts parts marks).done

theorem visitsStatements : ∀ (body : List Stmt) (marks : List LangFeatures),
    VisitsAs (visitStatements marks body) (scopedStatements body) (LevelStatements body)
      (PlacedStatements marks body)
  | [], _ => VisitsAs.start (fun _ => rfl) fun _ => rfl
  | stmt :: rest, marks => by
    refine ((visitsStatement stmt marks).andThen (visitsStatements rest marks)).of_iff
      (fun f => ?_) fun f => ?_
    · rw [scopedStatement_after]
      exact Iff.rfl
    · rw [scopedStatement_after]
      exact Iff.rfl

theorem visitsBody : ∀ (body : List Stmt) (marks : List LangFeatures),
    VisitsAs (visitBody marks body) (scopedStatements body) (LevelStatements body)
      (PlacedBody marks body)
  | [], _ => VisitsAs.start (fun _ => rfl) fun _ => rfl
  | stmt :: rest, marks => by
    have hstmt := VisitsAs.of_forall fun f => visitsStatement stmt (f :: marks)
    refine (hstmt.andThen (visitsBody rest marks)).of_iff (fun f => ?_) fun f => ?_
    · rw [scopedStatement_after]
      exact Iff.rfl
    · rw [scopedStatement_after]
      exact Iff.rfl

end

/-! ## Both -/

/-- The features at every token, at every node in the parser and at every node in the code
generator are those of the scopes. The last token is the end of the source. -/
structure OneScope (program : List Stmt) (f : LangFeatures) : Prop where
  tokens : (parse program f).tokens
    = (scopedStatements program f).tokens ++ [endOf program f]
  parsed : (parse program f).nodes = (scopedStatements program f).nodes
  compiled : (generate program f).nodes = (scopedStatements program f).nodes

theorem oneScope_iff (program : List Stmt) (f : LangFeatures) :
    OneScope program f ↔ LevelStatements program f ∧ PlacedBody [] program f := by
  have htokens : (parse program f).tokens = f :: (parseStatements program f).tokens := rfl
  have hnodes : (parse program f).nodes = (parseStatements program f).nodes := rfl
  constructor
  · rintro ⟨ht, hp, hc⟩
    have hlevel : LevelStatements program f := by
      refine ((readsStatements program).exact f).mp ⟨?_, hnodes.symm.trans hp⟩
      rw [scopedStatements_after]
      exact htokens.symm.trans ht
    exact ⟨hlevel, ((visitsBody program []).exact f hlevel).mp hc⟩
  · rintro ⟨hlevel, hplaced⟩
    obtain ⟨ht, hp⟩ := ((readsStatements program).exact f).mpr hlevel
    rw [scopedStatements_after] at ht
    exact ⟨htokens.trans ht, hnodes.trans hp,
      ((visitsBody program []).exact f hlevel).mpr hplaced⟩

/-! ## One directive in each kind of scope -/

/-- `LF_FORBID_DELETE_OP | LF_FORBID_SWITCH_STMT` -/
def defaultLangFeatures : LangFeatures := 0x14

/-- `#forbid-clone-operator` -/
def forbidCloneOperator : Directive := ⟨0x8, 0⟩

/-- A block, the bodies of the statements, a code block and the body of a function. -/
def statementsWithDirective : List Stmt :=
  let body := [Stmt.directive forbidCloneOperator]
  [.block body, ifStatement [.token] (.ifLikeBlock true body) none,
    ifStatement [.token] (.ifLikeBlock true []) (some (.ifLikeBlock false body)),
    loopStatement [.node [.token]] (.ifLikeBlock true body),
    doWhileStatement (.ifLikeBlock true body) [.token],
    switchStatement [.token] [switchCase [.token] body] [],
    tryCatchStatement (.directive forbidCloneOperator) (.block []),
    .other [.node [.codeBlock body]], .other [.function none [.token, .token, .token] body]]

/-- The directive reaches beyond each of these scopes. -/
theorem directive_leaves_scope :
    statementsWithDirective.Forall fun stmt => ¬ OneScope [stmt] defaultLangFeatures := by
  have hleaves : ∀ stmt ∈ statementsWithDirective, (parse [stmt] defaultLangFeatures).tokens
      ≠ (scopedStatements [stmt] defaultLangFeatures).tokens ++
        [endOf [stmt] defaultLangFeatures] := by
    simp only [statementsWithDirective, List.forall_mem_cons]
    decide +kernel
  exact List.forall_iff_forall_mem.mpr fun stmt hstmt h => hleaves stmt hstmt h.tokens

end Quirrel.Directives
