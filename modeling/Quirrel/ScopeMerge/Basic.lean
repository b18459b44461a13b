import Mathlib.Logic.Function.Basic
import Quirrel.NodeEqualChecker.Basic

/-!
# Variables and scopes of the static analyser

`ValueRef` and `VarScope` of the analyser, and what the visitor does to the variables of a branch. A
scope is the list of the scopes from the innermost one outwards; a map of symbols is a function of
the name. Of the pointer `lastAssigneeScope` only the depth of the scope is ever read, so it is the
depth. A pointer to a `SymbolInfo` is the record with its address; no two records share one.
-/

set_option autoImplicit false

namespace Quirrel.ScopeMerge

open NodeEqualChecker (Node CString)

/-! ## Variables -/

/-- `SymbolKind` -/
inductive SymbolKind where
  | exception | function | class_ | table | var_ | binding | const_ | enum_ | enumConst | param
  | foreach | externalBinding | import_
  deriving DecidableEq

/-- `SymbolInfo` -/
structure SymbolInfo where
  addr : Nat
  kind : SymbolKind
  deriving DecidableEq

/-- `SymbolInfo::isConstant` -/
def SymbolInfo.isConstant (info : SymbolInfo) : Bool := info.kind != .var_

/-- `ValueRefState` -/
inductive ValueRefState where
  | expression
  | initialized
  | multiple
  | unknown
  | declared
  deriving DecidableEq

/-- `ValueRef` -/
structure ValueRef where
  info : SymbolInfo
  state : ValueRefState
  expression : Option Node
  evalIndex : Int
  origin : Option Nat
  originEvalIndex : Int
  assigned : Bool
  lastAssigneeScope : Option Nat
  flagsPositive : BitVec 32
  flagsNegative : BitVec 32
  disjoint : flagsPositive &&& flagsNegative = 0

/-- `RT_NULL` -/
def rtNull : BitVec 32 := 2

namespace ValueRef

/-- `ValueRef::hasValue` -/
def hasValue (v : ValueRef) : Bool := v.state == .expression || v.state == .initialized

/-- `ValueRef::isConstant` -/
def isConstant (v : ValueRef) : Bool := v.info.isConstant

/-- The constructor, as `makeValueRef` calls it. -/
def make (info : SymbolInfo) (evalIndex : Int) : ValueRef where
  info := info
  state := .expression
  expression := none
  evalIndex := evalIndex
  origin := none
  originEvalIndex := -1
  assigned := false
  lastAssigneeScope := none
  flagsPositive := 0
  flagsNegative := 0
  disjoint := by decide

/-- No flag is known any more. -/
def clearFlags (v : ValueRef) : ValueRef :=
  { v with flagsPositive := 0, flagsNegative := 0, disjoint := by decide }

/-- `kill` with its second argument `true`. -/
def kill (v : ValueRef) (k : ValueRefState) : ValueRef :=
  (if v.isConstant then v else { v with state := k, expression := none }).clearFlags

/-- `if (v->isConstant()) continue; v->kill();` -/
def killVariable (v : ValueRef) : ValueRef := if v.isConstant then v else v.kill .unknown

/-- `mergeMatrix` -/
def mergeMatrix : ValueRefState → ValueRefState → ValueRefState
  | .expression, .expression => .expression
  | .expression, .initialized => .multiple
  | .expression, .multiple => .multiple
  | .expression, .unknown => .unknown
  | .expression, .declared => .multiple
  | .initialized, .expression => .multiple
  | .initialized, .initialized => .initialized
  | .initialized, .multiple => .multiple
  | .initialized, .unknown => .unknown
  | .initialized, .declared => .multiple
  | .multiple, .expression => .multiple
  | .multiple, .initialized => .multiple
  | .multiple, .multiple => .multiple
  | .multiple, .unknown => .unknown
  | .multiple, .declared => .multiple
  | .unknown, .expression => .unknown
  | .unknown, .initialized => .unknown
  | .unknown, .multiple => .unknown
  | .unknown, .unknown => .unknown
  | .unknown, .declared => .unknown
  | .declared, .expression => .multiple
  | .declared, .initialized => .multiple
  | .declared, .multiple => .multiple
  | .declared, .unknown => .unknown
  | .declared, .declared => .declared

/-- The deeper scope, this one's when they are as deep. -/
def mergeAssignee (this other : Option Nat) : Option Nat :=
  match this, other with
  | some d, some d' => if d' > d then some d' else some d
  | some d, none => some d
  | none, other => other

/-- The marks of the last assignment, which both `merge` and `intersectValue` join first. -/
def mergeMarks (this other : ValueRef) : ValueRef :=
  { this with
    assigned := this.assigned && other.assigned
    lastAssigneeScope := mergeAssignee this.lastAssigneeScope other.lastAssigneeScope }

/-- `ValueRef::merge` -/
def merge (this other : ValueRef) : ValueRef :=
  let v := this.mergeMarks other
  if v.state ≠ other.state then v.kill (mergeMatrix other.state v.state)
  else if v.isConstant then v
  else if !NodeEqualChecker.check v.expression other.expression then v.kill .multiple
  else v

/-! ### What the visitor does to a variable -/

/-- The assignment of `applyAssignmentToScope`, in a scope with this id and depth. -/
def assign (v : ValueRef) (rhs : Node) (nullable : Bool) (evalId : Int) (depth : Nat) : ValueRef :=
  { v with
    expression := some rhs
    state := .expression
    flagsNegative := 0
    assigned := true
    lastAssigneeScope := some depth
    evalIndex := evalId
    flagsPositive := if nullable then rtNull else 0
    disjoint := by split <;> decide }

/-- `applyAssignEqToScope` -/
def assignEq (v : ValueRef) (evalId : Int) : ValueRef :=
  { v.kill .unknown with evalIndex := evalId }

/-- `visitIncExpr` -/
def inc (v : ValueRef) : ValueRef :=
  { v.clearFlags with expression := none, state := .multiple }

theorem disjoint_setFlags {p n pf nf : BitVec 32} (h : p &&& n = 0) :
    ((p ||| pf) &&& ~~~nf) &&& ((n ||| nf) &&& ~~~pf) = 0 := by
  apply BitVec.eq_of_getLsbD_eq
  intro i hi
  have hbit : (p.getLsbD i && n.getLsbD i) = false := by
    rw [← BitVec.getLsbD_and, h]
    exact BitVec.getLsbD_zero
  simp only [BitVec.getLsbD_and, BitVec.getLsbD_or, BitVec.getLsbD_not, hi, decide_true,
    Bool.true_and, BitVec.ofNat_eq_ofNat, BitVec.getLsbD_zero]
  revert hbit
  generalize p.getLsbD i = x, n.getLsbD i = y, pf.getLsbD i = z, nf.getLsbD i = w
  revert x y z w
  decide

/-- `setValueFlags` -/
def setFlags (v : ValueRef) (pf nf : BitVec 32) : ValueRef :=
  { v with
    flagsPositive := (v.flagsPositive ||| pf) &&& ~~~nf
    flagsNegative := (v.flagsNegative ||| nf) &&& ~~~pf
    disjoint := disjoint_setFlags v.disjoint }

/-- The marks that `checkIdUsed` leaves on the target of an assignment. -/
def markAssigned (v : ValueRef) (depth : Nat) : ValueRef :=
  { v with assigned := true, lastAssigneeScope := some depth }

/-- The mark that `checkIdUsed` leaves on a variable that is used. -/
def markUsed (v : ValueRef) (compound : Bool) : ValueRef :=
  if v.assigned then { v with assigned := compound } else v

end ValueRef

/-! ## Scopes -/

/-- One scope without its parents. -/
structure VarScope where
  evalId : Int
  depth : Nat
  owner : Nat
  symbols : CString → Option ValueRef

/-- A scope with its parents. -/
abbrev Chain : Type := List VarScope

/-- What one entry of this scope becomes when the entry of the other one is merged into it. -/
def mergeEntry (this other : Option ValueRef) : Option ValueRef :=
  match this, other with
  | some v, some w => if v.info = w.info then some (v.merge w) else some v
  | this, _ => this

/-- The loop of `VarScope::merge`. -/
def mergeSymbols : Chain → Chain → Chain
  | l :: ls, r :: rs =>
    { l with symbols := fun n => mergeEntry (l.symbols n) (r.symbols n) } :: mergeSymbols ls rs
  | ls, _ => ls

/-- `VarScope::merge` -/
def merge (this other : Chain) : Chain :=
  match mergeSymbols this other, this, other with
  | s :: ss, l :: _, r :: _ => { s with evalId := max l.evalId r.evalId + 1 } :: ss
  | ss, _, _ => ss

/-- A variable in a copy that is not for a closure. -/
def ValueRef.copied (v : ValueRef) : ValueRef :=
  { v with assigned := false, lastAssigneeScope := none }

/-- A variable in a copy for a closure. -/
def ValueRef.copiedForClosure (v : ValueRef) : ValueRef :=
  if v.isConstant then v.copied
  else
    { ValueRef.make v.info v.evalIndex with
      state := .unknown
      assigned := v.assigned
      lastAssigneeScope := v.lastAssigneeScope }

/-- `VarScope::copy`: the constructor computes the depth and the id from those of the parent. -/
def copy (forClosure : Bool) : Chain → Chain
  | [] => []
  | s :: ss =>
    let parent := copy forClosure ss
    { evalId := match parent with
        | p :: _ => p.evalId + 1
        | [] => 0
      depth := match parent with
        | p :: _ => p.depth + 1
        | [] => 0
      owner := s.owner
      symbols := fun n => (s.symbols n).map fun v =>
        if forClosure then v.copiedForClosure else v.copied } :: parent

/-! ## What the visitor does to a branch -/

/-- A change of the variable that `findValueInScopes` finds; `none` when there is none. -/
def updateInScopes (name : CString) (f : ValueRef → ValueRef) : Chain → Option Chain
  | [] => none
  | s :: ss =>
    match s.symbols name with
    | some v => some ({ s with symbols := Function.update s.symbols name (some (f v)) } :: ss)
    | none => (updateInScopes name f ss).map fun ss' => s :: ss'

/-- `findScope` and a `kill` of one symbol of it that is not a constant. -/
def killInScope (owner : Nat) (name : CString) : Chain → Chain
  | [] => []
  | s :: ss =>
    if s.owner = owner then
      { s with
        symbols := Function.update s.symbols name
          ((s.symbols name).map ValueRef.killVariable) } :: ss
    else s :: killInScope owner name ss

/-- What the checker does to the scope of a branch. -/
inductive BranchOp where
  | assign (name : CString) (rhs : Node) (nullable : Bool)
  | assignEq (name : CString)
  | inc (name : CString)
  | setFlags (name : CString) (pf nf : BitVec 32)
  | markAssigned (name : CString)
  | markUsed (name : CString) (compound : Bool)
  /-- `applyKnownInvocationToScope`, with the symbols that the function modifies. -/
  | knownInvocation (modifiable : List (Nat × CString))
  /-- `applyUnknownInvocationToScope` -/
  | unknownInvocation

/-- A branch while it is visited: its scope and the address of the next `SymbolInfo`. -/
structure Branch where
  chain : Chain
  next : Nat

/-- The innermost scope. -/
def Branch.evalId (b : Branch) : Int := (b.chain.head?.map (·.evalId)).getD 0

/-- The depth of the innermost scope. -/
def Branch.depth (b : Branch) : Nat := (b.chain.head?.map (·.depth)).getD 0

/-- A change of a variable, if it is found. -/
def Branch.update (b : Branch) (name : CString) (f : ValueRef → ValueRef) : Branch :=
  { b with chain := (updateInScopes name f b.chain).getD b.chain }

/-- A new variable in the innermost scope. -/
def Branch.declare (b : Branch) (name : CString) (v : ValueRef) : Branch :=
  match b.chain with
  | [] => b
  | s :: ss =>
    ⟨{ s with symbols := Function.update s.symbols name (some v) } :: ss, b.next + 1⟩

/-- `applyAssignmentToScope`: a name that is in no scope becomes a variable. -/
def Branch.assign (b : Branch) (name : CString) (rhs : Node) (nullable : Bool) : Branch :=
  match updateInScopes name (fun v => v.assign rhs nullable b.evalId b.depth) b.chain with
  | some chain => { b with chain := chain }
  | none => b.declare name
      ((ValueRef.make ⟨b.next, .var_⟩ b.evalId).assign rhs nullable b.evalId b.depth)

/-- One operation on a branch. -/
def BranchOp.apply (b : Branch) : BranchOp → Branch
  | .assign name rhs nullable => b.assign name rhs nullable
  | .assignEq name => b.update name fun v => v.assignEq b.evalId
  | .inc name => b.update name ValueRef.inc
  | .setFlags name pf nf => b.update name fun v => v.setFlags pf nf
  | .markAssigned name => b.update name fun v => v.markAssigned b.depth
  | .markUsed name compound => b.update name fun v => v.markUsed compound
  | .knownInvocation modifiable =>
    { b with chain := modifiable.foldl (fun c m => killInScope m.1 m.2 c) b.chain }
  | .unknownInvocation =>
    { b with
      chain := b.chain.map fun s =>
        { s with symbols := fun n => (s.symbols n).map ValueRef.killVariable } }

/-- The operations of a branch, in order. -/
def runOps (b : Branch) (ops : List BranchOp) : Branch := ops.foldl BranchOp.apply b

end Quirrel.ScopeMerge
