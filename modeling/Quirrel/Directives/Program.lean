import Mathlib.Tactic.Common
import Quirrel.Lib.Lookahead

set_option autoImplicit false

/-!
# Directives in the parser and in the code generator

A program as the parser has read it, with its tokens, its nodes and its directives in the
order of the source text. `SQParser` has the features in force in `_lang_features`, and
each token that it takes makes it read the next one. `CodeGenVisitor` has them in the
function state. The `default:` prefix is left out.
-/

namespace Quirrel.Directives

open Quirrel.Lib

/-- `SQUnsignedInteger lang_features` -/
abbrev LangFeatures := BitVec 64

/-- The flags of an `SQPragmaDescriptor`. -/
structure Directive where
  setFlags : LangFeatures
  clearFlags : LangFeatures

/-- `(lang_features | setFlags) & ~clearFlags` -/
def Directive.apply (d : Directive) (f : LangFeatures) : LangFeatures :=
  (f ||| d.setFlags) &&& ~~~d.clearFlags

mutual

/-- What statements and expressions are made of. `hoisted` is how many functions further
out closure hoisting declares the function, if it moves it. -/
inductive Part where
  | token
  | node (parts : List Part)
  | function (hoisted : Option Nat) (params : List Part) (body : List Stmt)
  | lambda (hoisted : Option Nat) (params expr : List Part)
  | codeBlock (body : List Stmt)
  | ifLikeBlock (braces : Bool) (body : List Stmt)
  | statements (body : List Stmt)
  | statement (stmt : Stmt)

/-- A statement, as far as directives and blocks matter. -/
inductive Stmt where
  | directive (d : Directive)
  | block (body : List Stmt)
  | other (parts : List Part)

end

/-! ## Statements with bodies -/

/-- `parseIfStatement`: `if`, `(`, the condition, `)` and the branches. -/
def ifStatement (cond : List Part) (thenB : Part) : Option Part → Stmt
  | none => .other ([.token, .token, .node cond, .token, thenB])
  | some elseB => .other [.token, .token, .node cond, .token, thenB, .token, elseB]

/-- `parseWhileStatement`, and with other tokens in the parentheses `parseForStatement` and
`parseForEachStatement`. -/
def loopStatement (head : List Part) (body : Part) : Stmt :=
  .other ([.token, .token] ++ head ++ [.token, body])

/-- `parseDoWhileStatement` -/
def doWhileStatement (body : Part) (cond : List Part) : Stmt :=
  .other [.token, body, .token, .token, .node cond, .token]

/-- `case`, the value, `:` and the statements. -/
def switchCase (value : List Part) (body : List Stmt) : List Part :=
  [.token, .node value, .token, .statements body]

/-- `parseSwitchStatement` -/
def switchStatement (value : List Part) (cases : List (List Part)) (default : List Part) : Stmt :=
  .other ([.token, .token, .node value, .token, .token] ++ cases.flatten ++ default ++ [.token])

/-- `parseTryCatchStatement` -/
def tryCatchStatement (tryStatement catchStatement : Stmt) : Stmt :=
  .other [.token, .statement tryStatement, .token, .token, .token, .token,
    .statement catchStatement]

/-! ## The parser -/

mutual

/-- The tokens that the parser reads while it takes the tokens of the part, and the nodes
that it completes, each with the features at that moment. -/
def parsePart : Part → LangFeatures → Trace LangFeatures
  | .token, f => .token f
  | .node parts, f => (parseParts parts f).done
  | .function _ params body, f =>
    ((parseParts params f).andThen fun saved =>
      ((Trace.enclosed (fun f => parseStatements body f) saved).restore saved).done.restore
        saved).done
  | .lambda _ params expr, f =>
    ((parseParts params f).andThen fun saved => (parseParts expr saved).restore saved).done
  | .codeBlock body, saved =>
    ((Trace.enclosed (fun f => parseStatements body f) saved).restore saved).done
  | .ifLikeBlock true body, f => (Trace.enclosed (fun f => parseStatements body f) f).done
  | .ifLikeBlock false body, f => (parseStatements body f).done
  | .statements body, f => (parseStatements body f).done
  | .statement stmt, f => (parseStatement stmt f).done

/-- The parts of a statement, in order. -/
def parseParts : List Part → LangFeatures → Trace LangFeatures
  | [], f => .start f
  | part :: rest, f => (parsePart part f).andThen fun f => parseParts rest f

/-- `parseStatement` -/
def parseStatement : Stmt → LangFeatures → Trace LangFeatures
  | .directive d, f => (Trace.node f).andThen fun f => .token (d.apply f)
  | .block body, saved =>
    ((Trace.enclosed (fun f => parseStatements body f) saved).restore saved).done
  | .other parts, f => (parseParts parts f).done

/-- `parseStatements` -/
def parseStatements : List Stmt → LangFeatures → Trace LangFeatures
  | [], f => .start f
  | stmt :: rest, f => (parseStatement stmt f).andThen fun f => parseStatements rest f

end

/-- `SQParser::parse`, with the first `Lex`. -/
def parse (program : List Stmt) (f : LangFeatures) : Trace LangFeatures :=
  (Trace.token f).andThen fun f => parseStatements program f

/-! ## The code generator -/

/-- The features where a function is compiled: where it stands, or at the statement in
front of which its declaration is inserted. `marks` are these statements in the functions
around it. -/
def placeOf (marks : List LangFeatures) (f : LangFeatures) : Option Nat → LangFeatures
  | none => f
  | some outwards => marks.getD outwards f

/-- A function is compiled in a child state, which starts with a copy of the features. The
defaults of the parameters are compiled in the state that it comes from. -/
def visitFunction (params body : LangFeatures → Trace LangFeatures) (inherited : LangFeatures) :
    Trace LangFeatures :=
  (params inherited).andThen fun f =>
    ((body inherited).andThen fun _ => .node inherited).restore f

mutual

/-- The nodes of the part, each with the features of the function state when its visit
ends. Nothing is put back at the end of a block. -/
def visitPart (marks : List LangFeatures) : Part → LangFeatures → Trace LangFeatures
  | .token, f => .start f
  | .node parts, f => (visitParts marks parts f).done
  | .function hoisted params body, f =>
    let inherited := placeOf marks f hoisted
    let visited := visitFunction (fun f => visitParts (inherited :: marks) params f)
      (fun f => (visitBody marks body f).done) inherited
    if hoisted.isSome then visited.restore f else visited
  | .lambda hoisted params expr, f =>
    let inherited := placeOf marks f hoisted
    let visited := visitFunction (fun f => visitParts (inherited :: marks) params f)
      (fun f => visitParts (f :: marks) expr f) inherited
    if hoisted.isSome then visited.restore f else visited
  | .codeBlock body, f => (visitStatements marks body f).done
  | .ifLikeBlock _ body, f => (visitStatements marks body f).done
  | .statements body, f => (visitStatements marks body f).done
  | .statement stmt, f => (visitStatement marks stmt f).done

/-- The parts of a statement, in order. -/
def visitParts (marks : List LangFeatures) : List Part → LangFeatures → Trace LangFeatures
  | [], f => .start f
  | part :: rest, f => (visitPart marks part f).andThen fun f => visitParts marks rest f

/-- A statement: the code generator does not undo the directives of a block. -/
def visitStatement (marks : List LangFeatures) : Stmt → LangFeatures → Trace LangFeatures
  | .directive d, f => (Trace.node f).andThen fun f => .start (d.apply f)
  | .block body, f => (visitStatements marks body f).done
  | .other parts, f => (visitParts marks parts f).done

/-- The statements of a body, in order. -/
def visitStatements (marks : List LangFeatures) : List Stmt → LangFeatures → Trace LangFeatures
  | [], f => .start f
  | stmt :: rest, f =>
    (visitStatement marks stmt f).andThen fun f => visitStatements marks rest f

/-- The statements right in a function: functions can be declared in front of each. -/
def visitBody (marks : List LangFeatures) : List Stmt → LangFeatures → Trace LangFeatures
  | [], f => .start f
  | stmt :: rest, f =>
    (visitStatement (f :: marks) stmt f).andThen fun f => visitBody marks rest f

end

/-- `CodeGenVisitor::generate` -/
def generate (program : List Stmt) (f : LangFeatures) : Trace LangFeatures :=
  visitBody [] program f

end Quirrel.Directives
