import Quirrel.Regex.Basic

/-!
# The matcher of regular expressions

`sqstd_rex_matchnode` and the two ways to call it. The nodes do not change any more, so a pointer to
a node is the node. The text is from `_bol` to `_eol`, a pointer in it an offset.

The recursion of `matchnode` is bounded by `depth`, each loop by `budget`.
-/

set_option autoImplicit false

namespace Quirrel.Regex

open Quirrel.Lib

/-- What a match changes. `repetitions` is not in the source: it records for each run of the loop of a
quantifier the positions in the text that the run was at, the last one first. -/
structure Exec where
  -- `_matches`
  rexMatches : List SQRexMatch
  currsubexp : Int
  repetitions : List (List Nat)

/-- The matcher: its state is the `SQRex` while it runs. -/
abbrev MatchM (α : Type) := Fallible Stop Exec α

/-- `exp->_nodes[i]` -/
def nodeAt (nodes : List SQRexNode) (i : Int) : MatchM SQRexNode :=
  if 0 ≤ i then
    match nodes[i.toNat]? with
    | some n => pure n
    | none => throw .invalidNode
  else throw .invalidNode

/-- The node with index `i`, or else `other` for the index `-1`. -/
def nodeOr (nodes : List SQRexNode) (i : Int) (other : Option SQRexNode) :
    MatchM (Option SQRexNode) :=
  if i ≠ -1 then some <$> nodeAt nodes i else pure other

/-- `*str` -/
def charAt (text : CString) (str : Nat) : MatchM Int :=
  match text[str]? with
  | some c => pure c.toInt
  | none => throw .outsideText

/-- `exp->_matches[i] = f(exp->_matches[i])` -/
def setMatch (i : Int) (f : SQRexMatch → SQRexMatch) : MatchM Unit := do
  let e ← get
  if 0 ≤ i ∧ i < e.rexMatches.length then set { e with rexMatches := e.rexMatches.modify i.toNat f }
  else throw .invalidMatch

/-- `exp->_currsubexp = i` -/
def setSubexp (i : Int) : MatchM Unit := modify fun e => { e with currsubexp := i }

/-! ## Classes of characters -/

/-- `sqstd_rex_matchcclass` -/
def matchcclass (cclass : Int) (c : Int) : Bool :=
  if cclass = code 'a' then isalpha c
  else if cclass = code 'A' then !isalpha c
  else if cclass = code 'w' then isalnum c || c = code '_'
  else if cclass = code 'W' then !isalnum c && c ≠ code '_'
  else if cclass = code 's' then isspace c
  else if cclass = code 'S' then !isspace c
  else if cclass = code 'd' then isdigit c
  else if cclass = code 'D' then !isdigit c
  else if cclass = code 'x' then isxdigit c
  else if cclass = code 'X' then !isxdigit c
  else if cclass = code 'c' then iscntrl c
  else if cclass = code 'C' then !iscntrl c
  else if cclass = code 'p' then ispunct c
  else if cclass = code 'P' then !ispunct c
  else if cclass = code 'l' then islower c
  else if cclass = code 'u' then isupper c
  else false

/-- Whether a node in the chain of a class has the character. -/
def SQRexNode.hasChar (node : SQRexNode) (c : Int) : Bool :=
  match node.type with
  | .opRange => node.left ≤ byte c && byte c ≤ node.right
  | .opCclass => matchcclass node.left c
  | type => c = type.value

/-- `sqstd_rex_matchclass`, on the list of a set. -/
def matchclass (nodes : List SQRexNode) : Nat → SQRexNode → Int → MatchM Bool
  | 0, _, _ => throw .fuel
  | budget + 1, node, c => do
    if node.hasChar c then return true
    else if node.next ≠ -1 then matchclass nodes budget (← nodeAt nodes node.next) c
    else return false

/-! ## Single nodes -/

/-- The test of one character, and the position behind it if the character passes. -/
def single (text : CString) (str : Nat) (test : Int → MatchM Bool) : MatchM (Option Nat) := do
  if str = text.length then return none
  else if ← test (← charAt text str) then return some (str + 1)
  else return none

/-- The test of `\b`. -/
def wordBoundary (text : CString) (str : Nat) : MatchM Bool := do
  if str = 0 then
    if str < text.length then return !isspace (← charAt text str) else return false
  else if str = text.length then return !isspace (← charAt text (str - 1))
  else return isspace (← charAt text str) != isspace (← charAt text (str - 1))

/-- The loop of `OP_MB` over the characters from `str` on, with `cont` open ones. -/
def scanBalanced (cb ce : Int) : CString → Nat → Nat → Option Nat
  | [], _, _ => none
  | c :: cs, cont, str =>
    if c.toInt = ce then
      if cont - 1 = 0 then some (str + 1) else scanBalanced cb ce cs (cont - 1) (str + 1)
    else scanBalanced cb ce cs (if c.toInt = cb then cont + 1 else cont) (str + 1)

/-- The cases of `sqstd_rex_matchnode` that do not call it. -/
def matchSingle (nodes : List SQRexNode) (text : CString) (budget : Nat) (node : SQRexNode)
    (str : Nat) : MatchM (Option Nat) :=
  match node.type with
  | .opWb => do
    let isWordBoundary ← wordBoundary text str
    return if isWordBoundary = (node.left = code 'b') then some str else none
  | .opBol => return if str = 0 then some str else none
  | .opEol => return if str = text.length then some str else none
  | .opDot => single text str fun _ => pure true
  | .opClass => single text str fun c => do
    matchclass nodes budget (← nodeAt nodes node.left) c
  | .opNclass => single text str fun c => do
    return !(← matchclass nodes budget (← nodeAt nodes node.left) c)
  | .opCclass => single text str fun c => pure (matchcclass node.left c)
  | .opMb => do
    if str = text.length then return none
    else if (← charAt text str) ≠ node.left then return none
    else return scanBalanced node.left node.right (text.drop (str + 1)) 1 (str + 1)
  | type => single text str fun c => pure (c = type.value)

/-! ## Quantifiers -/

/-- `(right >> 16)&0x0000FFFF` -/
def SQRexNode.p0 (node : SQRexNode) : Int := node.right / 0x10000 % 0x10000

/-- `right&0x0000FFFF` -/
def SQRexNode.p1 (node : SQRexNode) : Int := node.right % 0x10000

/-- The test of the number of matches, in the loop and after it. -/
def satisfied (p0 p1 nmaches : Int) : Bool :=
  (p0 = p1 && p0 = nmaches) || (nmaches ≥ p0 && p1 = 0xFFFF) || (nmaches ≥ p0 && nmaches ≤ p1)

/-- The end of the loop at the positions `s :: trail`, the last one first. -/
def leaveLoop (p0 p1 nmaches : Int) (s : Nat) (trail : List Nat) : MatchM (Option Nat) := do
  modify fun e => { e with repetitions := (s :: trail) :: e.repetitions }
  return if satisfied p0 p1 nmaches then some s else none

/-- The loop of `OP_GREEDY`: `body` matches the element, `stop` looks ahead. Where an iteration begins
and where the loop ends, `s` and `good` of the source are the same. -/
def greedyLoop (text : CString) (body : Nat → MatchM (Option Nat)) (stop : Nat → MatchM Bool)
    (p0 p1 : Int) : Nat → Int → Nat → List Nat → MatchM (Option Nat)
  | 0, _, _, _ => throw .fuel
  | budget + 1, nmaches, s, trail => do
    if nmaches = 0xFFFF ∨ nmaches < p1 then
      match ← body s with
      | none => leaveLoop p0 p1 nmaches s trail
      | some s' =>
        -- a match of nothing ends the loop
        if s' = s then leaveLoop p0 p1 (nmaches + 1) s' (s :: trail)
        else if (← stop s') ∧ satisfied p0 p1 (nmaches + 1) then
          leaveLoop p0 p1 (nmaches + 1) s' (s :: trail)
        else if s' ≥ text.length then leaveLoop p0 p1 (nmaches + 1) s' (s :: trail)
        else greedyLoop text body stop p0 p1 budget (nmaches + 1) s' (s :: trail)
    else leaveLoop p0 p1 nmaches s trail

/-- `gnext` -/
def lookaheadNext (nodes : List SQRexNode) (greedystop : SQRexNode) (next : Option SQRexNode) :
    MatchM (Option SQRexNode) :=
  if greedystop.next ≠ -1 then some <$> nodeAt nodes greedystop.next
  else
    match next with
    | some n => nodeOr nodes n.next none
    | none => pure none

/-- Whether what follows the quantifier matches from `s` on. -/
def lookahead (nodes : List SQRexNode)
    (matcher : SQRexNode → Nat → Option SQRexNode → MatchM (Option Nat))
    (greedystop next : Option SQRexNode) (s : Nat) : MatchM Bool :=
  match greedystop with
  | none => pure false
  | some g =>
    if g.type ≠ .opGreedy ∨ g.p0 ≠ 0 then do
      let stop ← matcher g s (← lookaheadNext nodes g next)
      return stop.isSome
    else pure false

/-! ## Groups and alternatives -/

/-- The loop of `OP_OR` over the chain of one side. -/
def orLoop (nodes : List SQRexNode)
    (matcher : SQRexNode → Nat → Option SQRexNode → MatchM (Option Nat)) :
    Nat → SQRexNode → Nat → MatchM (Option Nat)
  | 0, _, _ => throw .fuel
  | budget + 1, temp, asd => do
    match ← matcher temp asd none with
    | none => return none
    | some asd =>
      if temp.next ≠ -1 then orLoop nodes matcher budget (← nodeAt nodes temp.next) asd
      else return some asd

/-- The loop of `OP_EXPR` over the chain of the group. -/
def exprLoop (nodes : List SQRexNode)
    (matcher : SQRexNode → Nat → Option SQRexNode → MatchM (Option Nat))
    (next : Option SQRexNode) : Nat → SQRexNode → Nat → MatchM (Option Nat)
  | 0, _, _ => throw .fuel
  | budget + 1, n, cur => do
    match ← matcher n cur (← nodeOr nodes n.next next) with
    | none => return none
    | some cur =>
      if n.next ≠ -1 then exprLoop nodes matcher next budget (← nodeAt nodes n.next) cur
      else return some cur

/-- The match that the group opens, if it is the next one to capture. -/
def openCapture (node : SQRexNode) (str : Nat) : MatchM (Option Int) := do
  let e ← get
  if node.type ≠ .opNocapexpr ∧ node.right = e.currsubexp then
    setMatch e.currsubexp fun m => { m with begin := some str }
    setSubexp (e.currsubexp + 1)
    return some e.currsubexp
  else return none

/-- The end of a group at `cur`. -/
def closeCapture (tempcap : Int) (capture : Option Int) (cur : Nat) : MatchM (Option Nat) := do
  setSubexp tempcap
  match capture with
  | some i => setMatch i fun m => { m with len := cur - (m.begin.getD 0 : Nat) }
  | none => pure ()
  return some cur

/-- A capturing group that fails gives its capture back. -/
def dropCapture (capture : Option Int) : MatchM (Option Nat) := do
  match capture with
  | some i => setMatch i fun _ => ⟨none, 0⟩
  | none => pure ()
  return none

/-! ## `sqstd_rex_matchnode` -/

/-- `sqstd_rex_matchnode`. The two numbers bound the lists of sets and the depth of the calls. -/
def matchnode (nodes : List SQRexNode) (text : CString) (budget : Nat) :
    Nat → SQRexNode → Nat → Option SQRexNode → MatchM (Option Nat)
  | 0, _, _, _ => throw .fuel
  | depth + 1, node, str, next =>
    match node.type with
    | .opGreedy => do
      let greedystop ← nodeOr nodes node.next next
      let body := fun s => do
        matchnode nodes text budget depth (← nodeAt nodes node.left) s greedystop
      let stop := lookahead nodes (matchnode nodes text budget depth) greedystop next
      greedyLoop text body stop node.p0 node.p1 budget 0 str []
    | .opOr => do
      let matcher := matchnode nodes text budget depth
      match ← orLoop nodes matcher budget (← nodeAt nodes node.left) str with
      | some asd => return some asd
      | none => orLoop nodes matcher budget (← nodeAt nodes node.right) str
    | .opExpr | .opNocapexpr => do
      let n ← nodeAt nodes node.left
      let capture ← openCapture node str
      let tempcap := (← get).currsubexp
      let matcher := matchnode nodes text budget depth
      match ← exprLoop nodes matcher next budget n str with
      | some cur => closeCapture tempcap capture cur
      | none => dropCapture capture
    | _ => matchSingle nodes text budget node str

/-! ## Matching and searching -/

/-- `sqstd_rex_match` -/
def rexMatch (nodes : List SQRexNode) (text : CString) (depth budget : Nat) : MatchM Bool := do
  setSubexp 0
  let res ← matchnode nodes text budget depth (← nodeAt nodes 0) 0 none
  return res = some text.length

/-- The inner loop of `sqstd_rex_searchrange`, from the node `_first` on. -/
def searchNodes (nodes : List SQRexNode) (text : CString) (depth budget : Nat) :
    Nat → Int → Nat → MatchM (Option Nat)
  | 0, _, _ => throw .fuel
  | steps + 1, i, cur => do
    if i ≠ -1 then
      setSubexp 0
      let n ← nodeAt nodes i
      match ← matchnode nodes text budget depth n cur none with
      | none => return none
      | some cur => searchNodes nodes text depth budget steps n.next cur
    else return some cur

/-- The outer loop of `sqstd_rex_searchrange`: where the match begins and ends. -/
def searchLoop (nodes : List SQRexNode) (text : CString) (depth budget : Nat) :
    Nat → Nat → MatchM (Option (Nat × Nat))
  | 0, _ => throw .fuel
  | steps + 1, textBegin => do
    match ← searchNodes nodes text depth budget budget 0 textBegin with
    | some cur => return some (textBegin, cur)
    | none =>
      if textBegin + 1 ≠ text.length then searchLoop nodes text depth budget steps (textBegin + 1)
      else return none

/-- `sqstd_rex_searchrange` -/
def searchrange (nodes : List SQRexNode) (text : CString) (depth budget : Nat) :
    MatchM (Option (Nat × Nat)) :=
  if text.length = 0 then pure none else searchLoop nodes text depth budget budget 0

/-- A call of the two functions with a text. -/
inductive Call where
  | whole (text : CString)
  | search (text : CString)

/-- The text that is matched against. -/
def Call.text : Call → CString
  | whole text | search text => text

/-- One call after the other on the same compiled pattern: where each one found a match. -/
def runCalls (nodes : List SQRexNode) (depth budget : Nat) :
    List Call → MatchM (List (Option (Nat × Nat)))
  | [] => return []
  | .whole text :: calls => do
    let found ← rexMatch nodes text depth budget
    let rest ← runCalls nodes depth budget calls
    return (if found then some (0, text.length) else none) :: rest
  | .search text :: calls => do
    let found ← searchrange nodes text depth budget
    let rest ← runCalls nodes depth budget calls
    return found :: rest

/-- The state in which `sqstd_rex_compile` leaves the matches. -/
def SQRex.cleared (e : SQRex) : Exec := ⟨.replicate e.nsubexpr ⟨none, 0⟩, 0, []⟩

end Quirrel.Regex
