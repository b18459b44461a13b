import Mathlib.Data.List.TakeWhile
import Quirrel.Vm.Object

/-!
# `SQLexer::ReadNumber`

How the lexer reads a number. The state is the source text from the current character on; behind its
end stands `SQUIRREL_EOB`. A diagnostic of a number is an error and ends the compilation. What
`std::from_chars` makes of the text of a float is a parameter.
-/

set_option autoImplicit false

namespace Quirrel.Lexer

open Quirrel.Vm

/-! ## Characters -/

/-- `isdigit` -/
def isDigit (c : UInt8) : Bool := 48 ≤ c && c ≤ 57

/-- `isxdigit` -/
def isXDigit (c : UInt8) : Bool := isDigit c || (97 ≤ c && c ≤ 102) || (65 ≤ c && c ≤ 70)

/-- `isalnum` -/
def isAlnum (c : UInt8) : Bool := (97 ≤ c && c ≤ 122) || (65 ≤ c && c ≤ 90) || isDigit c

/-- `isexponent` -/
def isExponent (c : UInt8) : Bool := c = 101 || c = 69

/-- `toupper` -/
def toUpper (c : UInt8) : UInt8 := if 97 ≤ c ∧ c ≤ 122 then c - 32 else c

/-- The byte of `0`. -/
def zeroChar : UInt8 := 48

/-- The byte of `.`. -/
def dot : UInt8 := 46

/-- The byte of `_`. -/
def underscore : UInt8 := 95

/-- `CUR_CHAR` -/
def curChar (s : List UInt8) : UInt8 := s.headD 0

/-- `NUM_NEXT`: past the current character and the underscores behind it -/
def numNext (s : List UInt8) : List UInt8 := s.tail.dropWhile (· = underscore)

theorem length_numNext_lt {s : List UInt8} (h : curChar s ≠ 0) : (numNext s).length < s.length := by
  cases s with
  | nil => exact absurd rfl h
  | cons c s =>
    have := (List.dropWhile_suffix (l := s) fun d => decide (d = underscore)).length_le
    rw [numNext, List.tail_cons, List.length_cons]
    omega

theorem ne_zero_of_isXDigit {c : UInt8} (h : isXDigit c = true) : c ≠ 0 := by
  rintro rfl
  exact absurd h (by decide)

theorem ne_zero_of_isAlnum {c : UInt8} (h : isAlnum c = true) : c ≠ 0 := by
  rintro rfl
  exact absurd h (by decide)

theorem isAlnum_of_isDigit {c : UInt8} (h : isDigit c = true) : isAlnum c = true := by
  rw [isAlnum, h, Bool.or_true]

/-! ## Values -/

/-- The errors of `ReadNumber`. -/
inductive DiagnosticsId where
  | octalNotSupported
  | hexTooManyDigits
  | hexDigitsExpected
  | malformedNumber
  | fpExpExpected
  | literalUnderflow
  | literalOverflow
  deriving DecidableEq

/-- The types of a number in `ReadNumber`. -/
inductive NumType where
  | int
  | float
  | hex
  | scientific
  deriving DecidableEq

/-- `INT_OVERFLOW_THRESHOLD` -/
def intOverflowThreshold : BitVec 64 := ~~~0#64 / 10#64

/-- `INT_OVERFLOW_DIGIT` -/
def intOverflowDigit : BitVec 64 := ~~~0#64 % 10#64

/-- `LexInteger`, with `x` from the digits before. -/
def lexInteger (x : BitVec 64) : List UInt8 → Option (BitVec 64)
  | [] => if x ≤ ~~~0#64 >>> 1 then some x else none
  | c :: s =>
    let digit := BitVec.ofNat 64 c.toNat - 48#64
    if intOverflowThreshold < x ∨ x = intOverflowThreshold ∧ intOverflowDigit < digit then none
    else lexInteger (x * 10#64 + digit) s

/-- `LexHexadecimal`, with `res` from the digits before. -/
def lexHexadecimal (res : BitVec 64) : List UInt8 → BitVec 64
  | [] => res
  | c :: s =>
    if isDigit c then lexHexadecimal (res * 16#64 + (BitVec.ofNat 64 c.toNat - 48#64)) s
    else lexHexadecimal (res * 16#64 + (BitVec.ofNat 64 (toUpper c).toNat - 65#64 + 10#64)) s

/-- What `std::from_chars` returns: the value, where it stopped, and whether the value is out of the
range of a float. -/
structure FromChars where
  value : SQFloat
  ptr : Nat
  outOfRange : Bool

/-- `FLT_MAX` -/
def fltMax : SQFloat := .ofInt ((2 ^ 24 - 1) * 2 ^ 104)

/-- The value of a float. The characters that were not read may be zeros only. -/
def floatValue (fromChars : List UInt8 → FromChars) (longstr : List UInt8) :
    Except DiagnosticsId SQFloat :=
  let ret := fromChars (longstr ++ [0])
  if ret.outOfRange then
    .error (if ret.value == .ofInt 0 then .literalUnderflow else .literalOverflow)
  else if (longstr.drop ret.ptr).any fun c => c ≠ zeroChar then .error .malformedNumber
  else if fltMax ≤ ret.value then .error .literalOverflow
  else .ok ret.value

/-! ## Scanning -/

/-- The loop over hexadecimal digits, with the digits before. -/
def readHexDigits (longstr s : List UInt8) : List UInt8 × List UInt8 :=
  if _ : isXDigit (curChar s) then readHexDigits (longstr ++ [curChar s]) (numNext s)
  else (longstr, s)
termination_by s.length
decreasing_by exact length_numNext_lt (ne_zero_of_isXDigit ‹_›)

/-- The sign of an exponent, if there is one. -/
def readSign (longstr s : List UInt8) : List UInt8 × List UInt8 :=
  if curChar s = 43 ∨ curChar s = 45 then (longstr ++ [curChar s], s.tail) else (longstr, s)

theorem length_readSign_le (longstr s : List UInt8) : (readSign longstr s).2.length ≤ s.length := by
  rw [readSign]
  split
  · exact (List.tail_suffix s).length_le
  · exact Nat.le_refl _

/-- The loop over the characters of a number that is not hexadecimal. The check and the append at
the end of its body stand in each of the branches. -/
def readDecimal (type : NumType) (hasExp hasDot : Bool) (longstr s : List UInt8) :
    Except DiagnosticsId (NumType × List UInt8 × List UInt8) :=
  if _ : curChar s = dot then
    if hasDot || hasExp then .error .malformedNumber
    else readDecimal .float hasExp true (longstr ++ [dot]) (numNext s)
  else if _ : isAlnum (curChar s) then
    if isExponent (curChar s) then
      if hasExp then .error .malformedNumber
      else
        let signed := readSign (longstr ++ [curChar s]) s.tail
        if _ : isDigit (curChar signed.2) then
          readDecimal .scientific true hasDot (signed.1 ++ [curChar signed.2]) (numNext signed.2)
        else .error .fpExpExpected
    else if isDigit (curChar s) then
      readDecimal type hasExp hasDot (longstr ++ [curChar s]) (numNext s)
    else .error .malformedNumber
  else .ok (type, longstr, s)
termination_by s.length
decreasing_by
  · exact length_numNext_lt (by rw [‹curChar s = dot›]; decide)
  · have h1 := length_numNext_lt (ne_zero_of_isAlnum (isAlnum_of_isDigit ‹_›))
    have h2 : signed.2.length ≤ s.tail.length := length_readSign_le _ _
    have h3 := (List.tail_suffix s).length_le
    exact Nat.lt_of_lt_of_le h1 (Nat.le_trans h2 h3)
  · exact length_numNext_lt (ne_zero_of_isAlnum ‹_›)

/-- `ReadNumber` up to the value: the type, the characters and the rest of the text -/
def scanNumber (src : List UInt8) : Except DiagnosticsId (NumType × List UInt8 × List UInt8) :=
  let firstchar := curChar src
  let s := numNext src
  if firstchar = zeroChar ∧ isDigit (curChar s) then .error .octalNotSupported
  else if firstchar = zeroChar ∧ toUpper (curChar s) = 88 then
    let digits := readHexDigits [] (numNext s)
    if 16 < digits.1.length then .error .hexTooManyDigits
    else if digits.1.length = 0 then .error .hexDigitsExpected
    else .ok (.hex, digits.1, digits.2)
  else readDecimal .int false false [firstchar] s

/-- The token of a number with its value. -/
inductive NumberToken where
  | integer (nvalue : BitVec 64)
  | float (fvalue : SQFloat)

/-- The value of the characters. -/
def numberValue (fromChars : List UInt8 → FromChars) (type : NumType) (longstr : List UInt8) :
    Except DiagnosticsId NumberToken :=
  match type with
  | .scientific | .float => (floatValue fromChars longstr).map .float
  | .int =>
    match lexInteger 0#64 longstr with
    | some x => .ok (.integer x)
    | none => .error .literalOverflow
  | .hex => .ok (.integer (lexHexadecimal 0#64 longstr))

/-- `SQLexer::ReadNumber`: the token and the rest of the text -/
def readNumber (fromChars : List UInt8 → FromChars) (src : List UInt8) :
    Except DiagnosticsId (NumberToken × List UInt8) :=
  match scanNumber src with
  | .ok (type, longstr, rest) => (numberValue fromChars type longstr).map fun t => (t, rest)
  | .error e => .error e

end Quirrel.Lexer
