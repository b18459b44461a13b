import Mathlib.Data.List.DropRight

/-!
# `dd_simplify_fname_c`

The simplification of path names in `path.cpp`. A string is the list of its characters before the
terminator. A read or a removal that is not inside the buffer of the string has no result; nor has a
loop that is not done within the bound it was given.
-/

set_option autoImplicit false

namespace Quirrel.PathName

/-- A C string without its end. -/
abbrev CString : Type := List Char

/-- `s[i]`, that is no character for the terminator behind the last one. -/
def charAt (s : CString) (i : Nat) : Option (Option Char) :=
  if i ≤ s.length then some s[i]? else none

/-- `len -= e; memmove(s+i, s+i+e, len+1-i)` -/
def erase (s : CString) (i e : Nat) : Option CString :=
  if i + e ≤ s.length then some (s.take i ++ s.drop (i + e)) else none

/-- What stands in front of a component. -/
def isDelim (c : Char) : Bool := c = '/' || c = ':'

/-! ## The part of the string that is simplified -/

/-- The length of a prefix such as `http://`, if more follows it. -/
def urlPrefix (s : CString) : Nat :=
  match (s.take 8).findIdx? (· = ':') with
  | some semi =>
    if s.length > semi + 3 ∧ s[semi + 1]? = some '/' ∧ s[semi + 2]? = some '/' then semi + 3 else 0
  | none => 0

/-- What is cut off at both ends. -/
def isBlank (c : Char) : Bool := c = ' ' || c = '\t' || c = '\n' || c = '\r'

/-- What stays when quotes are deleted. -/
def notQuote (c : Char) : Bool := c ≠ '"'

/-- Removes the first two quotes. -/
def unquote (s : CString) : CString :=
  match s.dropWhile notQuote with
  | [] => s
  | _ :: rest =>
    match rest.dropWhile notQuote with
    | [] => s
    | _ :: behind => s.takeWhile notQuote ++ rest.takeWhile notQuote ++ behind

/-- One iteration of the first loop. -/
def cleanOnce (s : CString) : CString :=
  unquote ((s.dropWhile isBlank).rdropWhile isBlank)

/-- The first loop goes on as long as an iteration has removed something. -/
def cleanLoop : Nat → CString → Option CString
  | 0, _ => none
  | fuel + 1, s =>
    if (cleanOnce s).length = s.length then some (cleanOnce s) else cleanLoop fuel (cleanOnce s)

/-- The loop that cuts blanks and quotes off. -/
def clean (s : CString) : Option CString := cleanLoop (s.length + 1) s

/-! ## The passes -/

/-- The replacement of back slashes. -/
def toSlash (c : Char) : Char := if c = '\\' then '/' else c

/-- The loop begins with the second character. -/
def backSlashes : CString → CString
  | [] => []
  | c :: cs => c :: cs.map toSlash

/-- The loop that erases the second of two slashes. -/
def extraSlashes : Nat → CString → Nat → Option CString
  | 0, _, _ => none
  | fuel + 1, s, i =>
    if i < s.length then do
      let c ← charAt s i
      let p ← charAt s (i - 1)
      -- `--i` and the `++i` of the loop
      if c = some '/' ∧ p = some '/' then extraSlashes fuel (← erase s i 1) i
      else extraSlashes fuel s (i + 1)
    else some s

/-- The loop that erases `./` at the front. -/
def leadingDots : CString → CString
  | '.' :: '/' :: s => leadingDots s
  | s => s

/-- The loop that erases a component `.`. -/
def extraDots : Nat → CString → Nat → Option CString
  | 0, _, _ => none
  | fuel + 1, s, i =>
    if i < s.length then do
      let c ← charAt s i
      let p ← charAt s (i - 1)
      let n ← charAt s (i + 1)
      if c = some '.' ∧ p.any isDelim ∧ (n = some '/' ∨ n = none) then
        extraDots fuel (← erase s i (if n = some '/' then 2 else 1)) i
      else extraDots fuel s (i + 1)
    else some s

/-- `for (j=i-3;j>=0;--j) if(s[j]==PATH_DELIM || s[j]==':') break; ++j`, with `i-2` for the argument. -/
def componentStart (s : CString) : Nat → Option Nat
  | 0 => some 0
  | j + 1 => do
    if (← charAt s j).any isDelim then some (j + 1) else componentStart s j

/-- Whether the component from `j` to `i-2` may go with the `..` at `i-1`. -/
def removable (s : CString) (i j : Nat) : Option Bool := do
  if j < i - 2 then
    if i + 1 - j ≠ 5 then some true
    else
      let c ← charAt s j
      let c' ← charAt s (j + 1)
      some (c ≠ some '.' || c' ≠ some '.')
  else some false

/-- The loop that erases a component `..` with the one before it. -/
def extraUps : Nat → CString → Nat → Option CString
  | 0, _, _ => none
  | fuel + 1, s, i =>
    if i < s.length then do
      let c₀ ← charAt s (i - 2)
      let c₁ ← charAt s (i - 1)
      let c₂ ← charAt s i
      let n ← charAt s (i + 1)
      if c₀ = some '/' ∧ c₁ = some '.' ∧ c₂ = some '.' ∧ (n = some '/' ∨ n = none) then
        let j ← componentStart s (i - 2)
        if ← removable s i j then
          let e := i + 1 - j
          extraUps fuel (← erase s j (if n = some '/' then e + 1 else e)) (max j 1 + 1)
        else extraUps fuel s (i + 1)
      else extraUps fuel s (i + 1)
    else some s

/-! ## The whole -/

/-- The passes over a string that is clean. -/
def passes (s : CString) : Option CString := do
  let s := backSlashes s
  let s ← extraSlashes (s.length + 1) s 1
  let s := leadingDots s
  let s ← extraDots (s.length + 1) s 1
  extraUps (s.length + 1) s 2

/-- `dd_simplify_fname_c` behind the URL prefix of a name. -/
def ddSimplifyFnameC (s : CString) : Option CString := do
  let t ← clean (s.drop (urlPrefix s))
  return s.take (urlPrefix s) ++ (← passes t)

end Quirrel.PathName
