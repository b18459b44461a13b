import Quirrel.Directives.Program

set_option autoImplicit false

/-!
# One scope for the directives

`scopedStatements` gives each token and each node the features that the directives before
it in its scope and in the scopes around it make. The parser follows it exactly in the
programs whose scopes end with the features that they began with (`parse_passes_iff`).
-/

namespace Quirrel.Directives

open Quirrel.Lib

/-- The features behind the statement, in its scope. -/
def Stmt.next : Stmt → LangFeatures → LangFeatures
  | .directive d, f => d.apply f
  | _, f => f

/-- The features at the end of a scope. -/
def endOf (body : List Stmt) (f : LangFeatures) : LangFeatures :=
  body.foldl (fun f stmt => stmt.next f) f

mutual

/-- The features of the tokens and of the nodes by the rule of scopes. -/
def scopedPart : Part → LangFeatures → Trace LangFeatures
  | .token, f => .token f
  | .node parts, f => (scopedParts parts f).done
  | .function _ params body, f =>
    ((scopedParts params f).andThen fun f =>
      ((Trace.enclosed (fun f => scopedStatements body f) f).restore f).done).done
  | .lambda _ params expr, f =>
    ((scopedParts params f).andThen fun f => scopedParts expr f).done
  | .codeBlock body, f =>
    ((Trace.enclosed (fun f => scopedStatements body f) f).restore f).done
  | .ifLikeBlock true body, f =>
    ((Trace.enclosed (fun f => scopedStatements body f) f).restore f).done
  | .ifLikeBlock false body, f => ((scopedStatements body f).restore f).done
  | .statements body, f => ((scopedStatements body f).restore f).done
  | .statement stmt, f => ((scopedStatement stmt f).restore f).done

/-- The parts of a statement, where every directive is undone at the end of its scope. -/
def scopedParts : List Part → LangFeatures → Trace LangFeatures
  | [], f => .start f
  | part :: rest, f => (scopedPart part f).andThen fun f => scopedParts rest f

/-- A statement of a program whose directives last as long as their scope. -/
def scopedStatement : Stmt → LangFeatures → Trace LangFeatures
  | .directive d, f => (Trace.node f).andThen fun f => (Trace.token f).restore (d.apply f)
  | .block body, f =>
    ((Trace.enclosed (fun f => scopedStatements body f) f).restore f).done
  | .other parts, f => (scopedParts parts f).done

/-- The statements of a body, in order. -/
def scopedStatements : List Stmt → LangFeatures → Trace LangFeatures
  | [], f => .start f
  | stmt :: rest, f => (scopedStatement stmt f).andThen fun f => scopedStatements rest f

end

mutual

/-- Each scope in the part ends with the features that it began with. -/
def LevelPart : Part → LangFeatures → Prop
  | .token, _ => True
  | .node parts, f => LevelParts parts f
  | .function _ params body, f => LevelParts params f ∧ LevelStatements body f ∧ endOf body f = f
  | .lambda _ params expr, f => LevelParts params f ∧ LevelParts expr f
  | .codeBlock body, f => LevelStatements body f ∧ endOf body f = f
  | .ifLikeBlock _ body, f => LevelStatements body f ∧ endOf body f = f
  | .statements body, f => LevelStatements body f ∧ endOf body f = f
  | .statement stmt, f => LevelStatement stmt f ∧ stmt.next f = f

/-- Every part is level. -/
def LevelParts : List Part → LangFeatures → Prop
  | [], _ => True
  | part :: rest, f => LevelPart part f ∧ LevelParts rest f

/-- The blocks in a statement end with the features they began with. -/
def LevelStatement : Stmt → LangFeatures → Prop
  | .directive _, _ => True
  | .block body, f => LevelStatements body f ∧ endOf body f = f
  | .other parts, f => LevelParts parts f

/-- Every statement is level where it stands. -/
def LevelStatements : List Stmt → LangFeatures → Prop
  | [], _ => True
  | stmt :: rest, f => LevelStatement stmt f ∧ LevelStatements rest (stmt.next f)

end

/-! ## The features behind a part -/

mutual

theorem scopedPart_after : ∀ (part : Part) (f : LangFeatures), (scopedPart part f).after = f
  | .token, _ => rfl
  | .node parts, f => scopedParts_after parts f
  | .function _ params _, f => scopedParts_after params f
  | .lambda _ params expr, f => (scopedParts_after expr _).trans (scopedParts_after params f)
  | .codeBlock _, _ => rfl
  | .ifLikeBlock true _, _ => rfl
  | .ifLikeBlock false _, _ => rfl
  | .statements _, _ => rfl
  | .statement _, _ => rfl

theorem scopedParts_after : ∀ (parts : List Part) (f : LangFeatures),
    (scopedParts parts f).after = f
  | [], _ => rfl
  | part :: rest, f => (scopedParts_after rest _).trans (scopedPart_after part f)

end

theorem scopedStatement_after (stmt : Stmt) (f : LangFeatures) :
    (scopedStatement stmt f).after = stmt.next f := by
  cases stmt with
  | directive d => rfl
  | block body => rfl
  | other parts => exact scopedParts_after parts f

theorem scopedStatements_after (body : List Stmt) :
    ∀ f, (scopedStatements body f).after = endOf body f := by
  induction body with
  | nil => exact fun _ => rfl
  | cons stmt rest ih =>
    intro f
    show (scopedStatements rest (scopedStatement stmt f).after).after = endOf rest (stmt.next f)
    rw [scopedStatement_after, ih]

/-! ## The parser -/

/-- A scope that ends with the features that it began with. -/
theorem level_iff {body : List Stmt} (f : LangFeatures) :
    LevelStatements body f ∧ (scopedStatements body f).after = f ↔
      LevelStatements body f ∧ endOf body f = f := by
  rw [scopedStatements_after]

mutual

theorem readsPart : ∀ part, ReadsAs (parsePart part) (scopedPart part) (LevelPart part)
  | .token => ReadsAs.token
  | .node parts => (readsParts parts).done
  | .function _ params body => by
    have hbody := ((readsStatements body).enclosedScope true).restore fun _ => rfl
    refine ((readsParts params).andThen hbody).done.of_iff fun f => ?_
    rw [scopedParts_after, level_iff]
    exact Iff.rfl
  | .lambda _ params expr => by
    have hexpr := (readsParts expr).restore (scopedParts_after expr)
    refine ((readsParts params).andThen hexpr).done.of_iff fun f => ?_
    rw [scopedParts_after]
    exact Iff.rfl
  | .codeBlock body => ((readsStatements body).enclosedScope true).of_iff level_iff
  | .ifLikeBlock true body => ((readsStatements body).enclosedScope false).of_iff level_iff
  | .ifLikeBlock false body => (readsStatements body).scope.of_iff level_iff
  | .statements body => (readsStatements body).scope.of_iff level_iff
  | .statement stmt => by
    refine (readsStatement stmt).scope.of_iff fun f => ?_
    rw [scopedStatement_after]
    exact Iff.rfl

theorem readsParts : ∀ parts, ReadsAs (parseParts parts) (scopedParts parts) (LevelParts parts)
  | [] => ReadsAs.start
  | part :: rest => by
    refine ((readsPart part).andThen (readsParts rest)).of_iff fun f => ?_
    rw [scopedPart_after]
    exact Iff.rfl

theorem readsStatement :
    ∀ stmt, ReadsAs (parseStatement stmt) (scopedStatement stmt) (LevelStatement stmt)
  | .directive d => (ReadsAs.node.andThen (ReadsAs.change d.apply)).of_iff fun _ => and_iff_right trivial
  | .block body => ((readsStatements body).enclosedScope true).of_iff level_iff
  | .other parts => (readsParts parts).done

theorem readsStatements :
    ∀ body, ReadsAs (parseStatements body) (scopedStatements body) (LevelStatements body)
  | [] => ReadsAs.start
  | stmt :: rest => by
    refine ((readsStatement stmt).andThen (readsStatements rest)).of_iff fun f => ?_
    rw [scopedStatement_after]
    exact Iff.rfl

end

end Quirrel.Directives
