import Quirrel.Lib.Fallible

/-!
# The compiler of regular expressions

`sqstd_rex_compile` of `sqstdrex.cpp`. A pattern becomes an array of nodes that name each other by
index; `-1` names none. A `char` is signed, and its promotion to `int` is taken where the source
reads it.

The compiler and the matcher end in an error where the source does (`error`), and where it has no
defined behaviour: at an index that is not one of the array, at a read outside the text. `fuel` is
what a recursion or a loop ends in that is not done within the bound it was given.
-/

set_option autoImplicit false

namespace Quirrel.Regex

open Quirrel.Lib

/-! ## Characters -/

/-- The characters of a string, without the terminator. -/
abbrev CString : Type := List Int8

/-- A character of the pattern or the text, as the `int` it is read into. -/
def code (c : Char) : Int := c.toNat

/-- `(unsigned char)c` -/
def byte (c : Int) : Int := c % 256

/-- Whether a byte lies in a range of characters. -/
def between (lo hi : Char) (c : Int) : Bool := code lo ≤ byte c && byte c ≤ code hi

/-- `isalpha` in the C locale, as the classes below. -/
def isalpha (c : Int) : Bool := between 'A' 'Z' c || between 'a' 'z' c

/-- `isdigit` -/
def isdigit (c : Int) : Bool := between '0' '9' c

/-- `isalnum` -/
def isalnum (c : Int) : Bool := between 'a' 'z' c || between 'A' 'Z' c || between '0' '9' c

/-- `iscntrl` -/
def iscntrl (c : Int) : Bool := byte c ≤ 31 || byte c = 127

/-- `islower` -/
def islower (c : Int) : Bool := between 'a' 'z' c

/-- `isupper` -/
def isupper (c : Int) : Bool := between 'A' 'Z' c

/-- `isprint` -/
def isprint (c : Int) : Bool := 32 ≤ byte c && byte c ≤ 126

/-- `ispunct`: printable, neither a space nor alphanumeric. -/
def ispunct (c : Int) : Bool :=
  (33 ≤ byte c && byte c ≤ 47) || (58 ≤ byte c && byte c ≤ 64) ||
    (91 ≤ byte c && byte c ≤ 96) || (123 ≤ byte c && byte c ≤ 126)

/-- A blank, or one of the controls from `\t` to `\r`. -/
def isspace (c : Int) : Bool := byte c = 32 || (9 ≤ byte c && byte c ≤ 13)

/-- `isxdigit` -/
def isxdigit (c : Int) : Bool := between '0' '9' c || between 'A' 'F' c || between 'a' 'f' c

/-! ## Nodes -/

/-- `SQRexNodeType`: one of the `OP_` constants, or a character. -/
inductive NodeType where
  | opGreedy | opOr | opExpr | opNocapexpr | opDot | opClass | opCclass | opNclass | opRange
  | opEol | opBol | opWb | opMb
  | char (c : Int)
  deriving DecidableEq

/-- The number that stands for the type. -/
def NodeType.value : NodeType → Int
  | opGreedy => 0x100
  | opOr => 0x101
  | opExpr => 0x102
  | opNocapexpr => 0x103
  | opDot => 0x104
  | opClass => 0x105
  | opCclass => 0x106
  | opNclass => 0x107
  | opRange => 0x108
  | opEol => 0x10a
  | opBol => 0x10b
  | opWb => 0x10c
  | opMb => 0x10d
  | char c => c

/-- `SQRexNode`; -1 stands for no node. -/
structure SQRexNode where
  type : NodeType
  left : Int
  right : Int
  next : Int
  deriving DecidableEq

/-- A group that was matched; `begin` is an offset in the text, none for a null pointer. -/
structure SQRexMatch where
  begin : Option Nat
  len : Int
  deriving DecidableEq

/-- `SQRex` while a pattern is compiled: `p` is the part of the pattern after `_p`. -/
structure SQRex where
  p : CString
  nodes : List SQRexNode
  depth : Nat
  nsubexpr : Nat

/-- What ends the compiler or the matcher without a result. -/
inductive Stop where
  | error (message : String)
  | invalidNode
  | invalidMatch
  | outsideText
  | fuel
  deriving DecidableEq

/-- The compiler of patterns: its state is the `SQRex`, and it may stop with an error. -/
abbrev RexM (α : Type) := Fallible Stop SQRex α

/-- `sqstd_rex_error` -/
def error {α : Type} (message : String) : RexM α := throw (.error message)

/-- An error when a condition holds. -/
def errorIf (c : Prop) [Decidable c] (message : String) : RexM Unit :=
  if c then error message else pure ()

/-- `*exp->_p` -/
def peek : RexM Int := do
  let e ← get
  return match e.p with
    | [] => 0
    | c :: _ => c.toInt

/-- `exp->_p++` -/
def advance : RexM Unit := modify fun e => { e with p := e.p.tail }

/-- `sqstd_rex_newnode` -/
def newnode (type : NodeType) : RexM Nat := modifyGet fun e =>
  -- only a capturing group has a number
  let right : Int := if type = .opExpr then e.nsubexpr else -1
  (e.nodes.length,
    { e with
      nodes := e.nodes ++ [⟨type, -1, right, -1⟩]
      nsubexpr := if type = .opExpr then e.nsubexpr + 1 else e.nsubexpr })

/-- `exp->_nodes[i]` -/
def node (i : Nat) : RexM SQRexNode := do
  let e ← get
  match e.nodes[i]? with
  | some n => return n
  | none => throw .invalidNode

/-- Replaces a node. -/
def setNode (i : Nat) (n : SQRexNode) : RexM Unit :=
  modify fun e => { e with nodes := e.nodes.set i n }

/-- `exp->_nodes[i].left = x` -/
def setLeft (i : Nat) (x : Int) : RexM Unit := do
  setNode i { ← node i with left := x }

/-- `exp->_nodes[i].right = x` -/
def setRight (i : Nat) (x : Int) : RexM Unit := do
  setNode i { ← node i with right := x }

/-- `exp->_nodes[i].next = x` -/
def setNext (i : Nat) (x : Int) : RexM Unit := do
  setNode i { ← node i with next := x }

/-! ## Characters and classes of characters -/

/-- `sqstd_rex_expect` -/
def expect (c : Char) : RexM Unit := do
  errorIf ((← peek) ≠ code c) "expected paren"
  advance

/-- The control that a letter stands for after a back slash. -/
def controlOf (c : Int) : Option Int :=
  if c = code 'v' then some 11
  else if c = code 'n' then some 10
  else if c = code 't' then some 9
  else if c = code 'r' then some 13
  else if c = code 'f' then some 12
  else none

/-- `sqstd_rex_escapechar` -/
def escapechar : RexM Int := do
  if (← peek) = code '\\' then
    advance
    let c ← peek
    errorIf (c = 0) "letter expected"
    advance
    return (controlOf c).getD c
  else
    let c ← peek
    errorIf (!isprint c) "letter expected"
    advance
    return c

/-- `sqstd_rex_charclass` -/
def charclass (classid : Int) : RexM Nat := do
  let n ← newnode .opCclass
  setLeft n classid
  return n

/-- The letters that name a class of characters after a back slash. -/
def isClassLetter (c : Int) : Bool :=
  c ∈ ['a', 'A', 'w', 'W', 's', 'S', 'd', 'D', 'x', 'X', 'c', 'C', 'p', 'P', 'l', 'u'].map code

/-- The case `'m'` of `sqstd_rex_charnode`, after the letter. -/
def balanced : RexM Nat := do
  let cb ← peek
  errorIf (cb = 0) "balanced chars expected"
  advance
  let ce ← peek
  errorIf (ce = 0) "balanced chars expected"
  advance
  errorIf (cb = ce) "open/close char can't be the same"
  let n ← newnode .opMb
  setLeft n cb
  setRight n ce
  return n

/-- `sqstd_rex_charnode` -/
def charnode (isclass : Bool) : RexM Nat := do
  let c ← peek
  if c = code '\\' then
    advance
    let c ← peek
    match controlOf c with
    | some control =>
      advance
      newnode (.char control)
    | none =>
      if isClassLetter c then
        advance
        charclass c
      else if c = code 'm' then
        advance
        balanced
      else if c = 0 then error "letter expected for argument of escape sequence"
      else if (c = code 'b' ∨ c = code 'B') ∧ !isclass then
        let n ← newnode .opWb
        setLeft n c
        advance
        return n
      else
        advance
        newnode (.char c)
  else
    errorIf (!isprint c) "letter expected"
    advance
    newnode (.char c)

/-- The loop of `sqstd_rex_class`. The character of `first` is not linked yet: it may turn out to be
the start of a range. -/
def classLoop : Nat → Nat → Option Nat → RexM (Nat × Option Nat)
  | 0, _, _ => throw .fuel
  | fuel + 1, chain, first => do
    let c ← peek
    if c = code ']' ∨ c = 0 then return (chain, first)
    else
      match first with
      | none =>
        let n ← charnode true
        classLoop fuel chain (some n)
      | some f =>
        if c = code '-' then
          advance
          errorIf ((← peek) = code ']') "unfinished range"
          let r ← newnode .opRange
          let start ← node f
          errorIf (start.type = .opCclass) "cannot use character classes in ranges"
          setLeft r start.type.value
          let t ← escapechar
          errorIf (start.type.value > t) "invalid range"
          setRight r t
          setNext chain r
          classLoop fuel r none
        else
          setNext chain f
          let n ← charnode true
          classLoop fuel f (some n)

/-- The node at the head of a class. -/
def classHead : RexM Nat := do
  if (← peek) = code '^' then
    let ret ← newnode .opNclass
    advance
    return ret
  else newnode .opClass

/-- The rest of `sqstd_rex_class`, after the loop: the chain moves from the `next` of the head to its
`left`. -/
def closeClass (ret chain : Nat) (first : Option Nat) : RexM Unit := do
  errorIf ((← peek) = 0) "unterminated character class"
  match first with
  | some f => setNext chain f
  | none => pure ()
  setLeft ret (← node ret).next
  setNext ret (-1)

/-- `sqstd_rex_class` -/
def charset (fuel : Nat) : RexM Nat := do
  let ret ← classHead
  errorIf ((← peek) = code ']') "empty class"
  let (chain, first) ← classLoop fuel ret none
  closeClass ret chain first
  return ret

/-! ## Quantifiers -/

/-- The loop of `sqstd_rex_parsenumber`. -/
def digits : Nat → Int → Int → RexM Int
  | 0, _, _ => throw .fuel
  | fuel + 1, ret, positions => do
    let c ← peek
    if isdigit c then
      advance
      errorIf (positions = 1000000000) "overflow in numeric constant"
      digits fuel (ret * 10 + (c - code '0')) (positions * 10)
    else return ret

/-- `sqstd_rex_parsenumber`: a first character, whatever it is, and then digits. -/
def parsenumber (fuel : Nat) : RexM Int := do
  let c ← peek
  advance
  digits fuel (c - code '0') 10

/-- A number of a quantifier, with the check of its size. -/
def bound (fuel : Nat) : RexM Int := do
  let n ← parsenumber fuel
  errorIf (n > 0xFFFE) "quantifier value too large"
  return n

/-- The second number, if there is one. -/
def upperBound (fuel : Nat) : RexM Int := do
  if isdigit (← peek) then bound fuel else pure 0xFFFF

/-- A quantifier in braces, after the opening one: `p0` and `p1`. -/
def braces (fuel : Nat) : RexM (Int × Int) := do
  errorIf (!isdigit (← peek)) "number expected"
  let p0 ← bound fuel
  let c ← peek
  if c = code '}' then
    advance
    return (p0, p0)
  else if c = code ',' then
    advance
    let p1 ← upperBound fuel
    expect '}'
    errorIf (p0 > p1) "invalid quantifier range: min > max"
    return (p0, p1)
  else error ", or \x7d expected"

/-- The quantifier after an element, if there is one. -/
def quantifier (fuel : Nat) : RexM (Option (Int × Int)) := do
  let c ← peek
  if c = code '*' then
    advance
    return some (0, 0xFFFF)
  else if c = code '+' then
    advance
    return some (1, 0xFFFF)
  else if c = code '?' then
    advance
    return some (0, 1)
  else if c = code '{' then
    advance
    some <$> braces fuel
  else return none

/-- The node of the quantifier over the element. -/
def quantify (ret : Nat) : Option (Int × Int) → RexM Nat
  | none => pure ret
  | some (p0, p1) => do
    let n ← newnode .opGreedy
    setLeft n ret
    -- `((SQInteger)p0<<16)|p1` for two numbers of sixteen bits
    setRight n (p0 * 0x10000 + p1)
    return n

/-! ## Elements and alternatives -/

/-- The opening of a group, after the parenthesis. -/
def openGroup : RexM Nat := do
  if (← peek) = code '?' then
    advance
    expect ':'
    newnode .opNocapexpr
  else newnode .opExpr

/-- The characters with which a run of elements ends. -/
def endsElements (c : Int) : Bool :=
  c = code '|' || c = code ')' || c = code '*' || c = code '+' || c = 0

mutual

/-- The first `switch` of `sqstd_rex_element` -/
def atom : Nat → RexM Nat
  | 0 => throw .fuel
  | fuel + 1 => do
    let c ← peek
    if c = code '(' then
      advance
      let expr ← openGroup
      let newn ← list fuel
      setLeft expr newn
      expect ')'
      return expr
    else if c = code '[' then
      advance
      let ret ← charset fuel
      expect ']'
      return ret
    else if c = code '$' then
      advance
      newnode .opEol
    else if c = code '.' then
      advance
      newnode .opDot
    else charnode false

/-- `sqstd_rex_element`, with its limits on depth and on the number of nodes. -/
def element : Nat → RexM Nat
  | 0 => throw .fuel
  | fuel + 1 => do
    modify fun e => { e with depth := e.depth + 1 }
    let e ← get
    errorIf (e.depth > 200) "pattern exceeds maximum allowed nesting depth"
    errorIf (e.nodes.length > 2000) "pattern too complex"
    let ret ← atom fuel
    let ret ← quantify ret (← quantifier fuel)
    if endsElements (← peek) then pure ()
    else setNext ret (← element fuel)
    modify fun e => { e with depth := e.depth - 1 }
    return ret

/-- `sqstd_rex_list` before the look for a branch -/
def branch : Nat → RexM Nat
  | 0 => throw .fuel
  | fuel + 1 => do
    if (← peek) = code '^' then
      advance
      let ret ← newnode .opBol
      setNext ret (← element fuel)
      return ret
    else element fuel

/-- `sqstd_rex_list`: branches separated by `|`. -/
def list : Nat → RexM Nat
  | 0 => throw .fuel
  | fuel + 1 => do
    let ret ← branch fuel
    if (← peek) = code '|' then
      advance
      let temp ← newnode .opOr
      setLeft temp ret
      setRight temp (← list fuel)
      return temp
    else return ret

end

/-- A bound for the nesting of the calls: four for each character, and four at the end. -/
def patternFuel (pattern : CString) : Nat := 4 * pattern.length + 4

/-- `sqstd_rex_compile` -/
def compileM (fuel : Nat) : RexM Unit := do
  let first ← newnode .opExpr
  setLeft first (← list fuel)
  errorIf ((← peek) ≠ 0) "unexpected character"

/-- `sqstd_rex_compile`, with `_nsubexpr` matches that are cleared. -/
def compile (pattern : CString) : Except Stop SQRex :=
  match (compileM (patternFuel pattern)).result ⟨pattern, [], 0, 0⟩ with
  | (.ok (), e) => .ok e
  | (.error s, _) => .error s

end Quirrel.Regex
