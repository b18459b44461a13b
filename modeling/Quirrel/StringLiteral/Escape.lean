import Mathlib.Data.List.TakeWhile
import Quirrel.Interning.StringTable
import Quirrel.Interpolation.Template

/-!
# `escape` and string literals

`string.escape` and what the compiler makes of its result between quotes: the token that
`SQLexer::ReadString` reads in the regular state, the copy that the parser takes of it for the
syntax tree, and the string that the code generator adds to the literals. The token holds the bytes
that were escaped (`readString_escape_append`). The copies are made of a C string and end before the
first NUL, so the literal has the escaped bytes exactly when there is no NUL in them and they are not
more than an `int` can count (`literalValue_escape_iff`).
-/

set_option autoImplicit false

namespace Quirrel.StringLiteral

open Interpolation (Bytes quote backslash newline hexDigit? hexDigits hexEscape)
open Quirrel.Strings (openBrace closeBrace)

/-! ## `_sq_string_escape_impl` -/

/-- `sq_isprint` -/
def isPrint (c : UInt8) : Bool := 32 ≤ c ∧ c ≤ 126

/-- The letter of a named escape. The letters of control characters are not reached, since
`sq_isprint` does not hold for them. -/
def escapeLetter? (c : UInt8) : Option UInt8 :=
  match c with
  | 7 => some 97
  | 8 => some 98
  | 9 => some 116
  | 10 => some 110
  | 11 => some 118
  | 12 => some 102
  | 13 => some 114
  | 92 => some 92
  | 34 => some 34
  | 39 => some 39
  | 0 => some 48
  | _ => none

/-- A digit of `%02x`. -/
def hexChar (d : UInt8) : UInt8 := if d < 10 then 48 + d else 87 + d

/-- What one character becomes, and whether it counts as escaped. -/
def escapeChar (c : UInt8) : Bytes × Bool :=
  if isPrint c ∨ c = 0 then
    match escapeLetter? c with
    | some escch => ([backslash, escch], true)
    | none => ([c], false)
  else ([backslash, 120, hexChar (c / 16), hexChar (c % 16)], true)

/-- The loop: the characters written and the number of escaped ones. -/
def escapeLoop : Bytes → Bytes × Nat
  | [] => ([], 0)
  | c :: str =>
    let (dest, escaped) := escapeLoop str
    ((escapeChar c).1 ++ dest, if (escapeChar c).2 then escaped + 1 else escaped)

/-- `_sq_string_escape_impl`; a string without anything to escape is returned itself. There is no result
where the loop counter, an `int`, overflows. -/
def escape (str : Bytes) : Option Bytes :=
  if str.length = 0 then some str
  else if 2 ^ 31 ≤ str.length then none
  else
    let (resstr, escaped) := escapeLoop str
    some (if escaped > 0 then resstr else str)

/-! ## `ReadString` in the regular state -/

/-- The bytes that an escape stands for, after the backslash. Braces have an escape in a template
only. -/
def readEscape : Bytes → Option (Bytes × Bytes)
  | [] => none
  | c :: rest => if c = openBrace ∨ c = closeBrace then none else Interpolation.readEscape (c :: rest)

theorem readEscape_length {s out rest : Bytes} (h : readEscape s = some (out, rest)) :
    rest.length < s.length := by
  cases s with
  | nil => cases h
  | cons c s =>
    rw [readEscape] at h
    split at h
    · cases h
    · exact Interpolation.readEscape_length h

/-- `ReadString` after the opening quote: the characters of the token and the source behind the
closing quote. No result is a diagnostic. -/
def readString (src : Bytes) : Option (Bytes × Bytes) :=
  match src with
  | [] => none
  | c :: rest =>
    if c = quote then some ([], rest)
    else if c = 0 ∨ c = newline then none
    else if c = backslash then
      match _h : readEscape rest with
      | some (bytes, rest') => (readString rest').map fun (val, src) => (bytes ++ val, src)
      | none => none
    else (readString rest).map fun (val, src) => (c :: val, src)
termination_by src.length
decreasing_by
  · have hlen := readEscape_length _h
    simp only [List.length_cons]
    omega
  · simp

/-! ## The value of the literal -/

/-- What `strlen` and `memcpy` make of the memory at a pointer: the characters before the first
NUL. -/
def copyString (s : Bytes) : Bytes := s.takeWhile (· ≠ 0)

/-- The value of a string literal that is the whole source: `LexSingleToken`, `newStringLiteral` with
`_svalue`, which points to the characters of the token and a NUL, and `CreateString`. -/
def literalValue (src : Bytes) : Option Bytes :=
  match src with
  | [] => none
  | c :: rest =>
    if c = quote then
      match readString rest with
      | some (longstr, []) => some (Interning.SQStringTable.bytesOf (copyString (longstr ++ [0]) ++ [0]) (-1))
      | _ => none
    else none

/-! ## Escaping undone -/

theorem escapeChar_of_false {c : UInt8} (h : (escapeChar c).2 = false) : (escapeChar c).1 = [c] := by
  by_cases hprint : isPrint c ∨ c = 0
  · cases hletter : escapeLetter? c with
    | none => simp [escapeChar, hprint, hletter]
    | some escch => simp [escapeChar, hprint, hletter] at h
  · simp [escapeChar, hprint] at h

/-- With nothing to escape the written characters are those of the string. -/
theorem escapeLoop_of_zero {str : Bytes} (h : (escapeLoop str).2 = 0) : (escapeLoop str).1 = str := by
  induction str with
  | nil => rfl
  | cons c str ih =>
    simp only [escapeLoop] at h ⊢
    have hc : (escapeChar c).2 = false := by
      cases hc : (escapeChar c).2 with
      | false => rfl
      | true =>
        rw [if_pos hc] at h
        exact absurd h (Nat.succ_ne_zero _)
    have hchar : (escapeChar c).1 = [c] := escapeChar_of_false hc
    rw [hc, if_neg Bool.false_ne_true] at h
    rw [hchar, ih h]
    rfl

/-- What is written is the result, also where nothing is escaped. -/
theorem escape_eq {str : Bytes} (hlen : str.length < 2 ^ 31) : escape str = some (escapeLoop str).1 := by
  unfold escape
  cases str with
  | nil => rfl
  | cons c str =>
    rw [if_neg (by simp), if_neg (Nat.not_le.mpr hlen)]
    by_cases h : (escapeLoop (c :: str)).2 > 0
    · exact congrArg some (if_pos h)
    · have hzero := escapeLoop_of_zero (Nat.le_zero.mp (Nat.not_lt.mp h))
      exact congrArg some ((if_neg h).trans hzero.symm)

theorem escape_of_le {str : Bytes} (hlen : 2 ^ 31 ≤ str.length) : escape str = none := by
  have hne : str.length ≠ 0 := Nat.ne_of_gt (Nat.lt_of_lt_of_le (by decide) hlen)
  rw [escape, if_neg hne, if_pos hlen]

theorem hexDigit?_hexChar {d : UInt8} (hd : d < 16) : hexDigit? (hexChar d) = some d.toNat := by
  have hall : ∀ n < 16, hexDigit? (hexChar (UInt8.ofNat n)) = some n := by decide
  have h := hall d.toNat (UInt8.lt_iff_toNat_lt.mp hd)
  rwa [UInt8.ofNat_toNat] at h

/-- A hexadecimal escape takes its two digits and leaves what follows. -/
theorem hexEscape_hexChar (c : UInt8) (rest : Bytes) :
    hexEscape 2 (hexChar (c / 16) :: hexChar (c % 16) :: rest) = some (c.toNat, rest) := by
  have hhi : c / 16 < 16 := by
    rw [UInt8.lt_iff_toNat_lt, UInt8.toNat_div]
    have hc := c.toNat_lt
    show c.toNat / 16 < 16
    omega
  have hlo : c % 16 < 16 := by
    rw [UInt8.lt_iff_toNat_lt, UInt8.toNat_mod]
    exact Nat.mod_lt _ (by decide)
  have hval : 16 * (16 * 0 + (c / 16).toNat) + (c % 16).toNat = c.toNat := by
    rw [UInt8.toNat_div, UInt8.toNat_mod]
    show 16 * (16 * 0 + c.toNat / 16) + c.toNat % 16 = c.toNat
    omega
  rw [hexEscape, hexDigit?_hexChar hhi]
  simp only [Option.isSome_some, if_true, hexDigits, hexDigit?_hexChar hhi, hexDigit?_hexChar hlo,
    hval]

theorem readString_backslash {s bytes rest : Bytes} (h : readEscape s = some (bytes, rest)) :
    readString (backslash :: s) =
      (readString rest).map fun (val, src) => (bytes ++ val, src) := by
  rw [readString, if_neg (by decide), if_neg (by decide), if_pos rfl]
  split
  · rename_i bytes' rest' h'
    cases h.symm.trans h'
    rfl
  · rename_i hnone
    exact nomatch h.symm.trans hnone

/-- The letter of a named escape stands for the character. -/
theorem readEscape_escapeLetter {c escch : UInt8} (h : escapeLetter? c = some escch) (rest : Bytes) :
    readEscape (escch :: rest) = some ([c], rest) := by
  unfold escapeLetter? at h
  split at h <;> first | cases h; rfl | exact nomatch h

theorem readEscape_hex (c : UInt8) (rest : Bytes) :
    readEscape (120 :: hexChar (c / 16) :: hexChar (c % 16) :: rest) = some ([c], rest) := by
  have hx : readEscape (120 :: hexChar (c / 16) :: hexChar (c % 16) :: rest) =
      (hexEscape 2 (hexChar (c / 16) :: hexChar (c % 16) :: rest)).map
        fun p => ([UInt8.ofNat p.1], p.2) := rfl
  rw [hx, hexEscape_hexChar]
  simp

/-- The lexer reads one character back from what `escape` made of it, whatever follows. -/
theorem readString_escapeChar (c : UInt8) (rest : Bytes) :
    readString ((escapeChar c).1 ++ rest) =
      (readString rest).map fun (val, src) => (c :: val, src) := by
  unfold escapeChar
  split
  · rename_i hprint
    cases hletter : escapeLetter? c with
    | some escch => exact readString_backslash (readEscape_escapeLetter hletter rest)
    | none =>
      -- a printable character that has no letter is no delimiter of the lexer
      have hq : c ≠ quote := by
        rintro rfl
        exact nomatch hletter
      have h0 : c ≠ 0 := by
        rintro rfl
        exact nomatch hletter
      have hn : c ≠ newline := by
        rintro rfl
        exact nomatch hletter
      have hb : c ≠ backslash := by
        rintro rfl
        exact nomatch hletter
      show readString (c :: rest) = _
      rw [readString, if_neg hq, if_neg (not_or.mpr ⟨h0, hn⟩), if_neg hb]
  · exact readString_backslash (readEscape_hex c rest)

/-- The token of an escaped string holds its characters. -/
theorem readString_escape_append (str rest : Bytes) :
    readString ((escapeLoop str).1 ++ quote :: rest) = some (str, rest) := by
  induction str with
  | nil =>
    show readString (quote :: rest) = some ([], rest)
    rw [readString, if_pos rfl]
  | cons c str ih =>
    have hcons : (escapeLoop (c :: str)).1 = (escapeChar c).1 ++ (escapeLoop str).1 := rfl
    rw [hcons, List.append_assoc, readString_escapeChar, ih]
    rfl

/-- The NUL behind a C string is not part of it. -/
theorem copyString_terminated (s : Bytes) : copyString (s ++ [0]) = copyString s := by
  induction s with
  | nil => rfl
  | cons c s ih =>
    by_cases hc : c = 0
    · simp [copyString, hc]
    · simpa [copyString, hc] using ih

theorem copyString_copyString (s : Bytes) : copyString (copyString s) = copyString s :=
  List.takeWhile_idem

theorem copyString_eq_self_iff (s : Bytes) : copyString s = s ↔ 0 ∉ s := by
  rw [copyString, List.takeWhile_eq_self_iff]
  constructor
  · intro h hmem
    exact absurd (h 0 hmem) (by decide)
  · intro h c hc
    have hne : c ≠ 0 := fun heq => h (heq ▸ hc)
    simp [hne]

/-- The literal is what was escaped, up to the first NUL. -/
theorem literalValue_escapeLoop (str : Bytes) :
    literalValue (quote :: (escapeLoop str).1 ++ [quote]) = some (copyString str) := by
  have hread := readString_escape_append str []
  have hvalue : Interning.SQStringTable.bytesOf (copyString (str ++ [0]) ++ [0]) (-1) =
      copyString str := by
    calc Interning.SQStringTable.bytesOf (copyString (str ++ [0]) ++ [0]) (-1)
        = copyString (copyString (str ++ [0]) ++ [0]) := rfl
      _ = copyString str := by
          rw [copyString_terminated, copyString_terminated, copyString_copyString]
  show (match readString ((escapeLoop str).1 ++ [quote]) with
      | some (longstr, []) =>
        some (Interning.SQStringTable.bytesOf (copyString (longstr ++ [0]) ++ [0]) (-1))
      | _ => none) = _
  rw [hread]
  exact congrArg some hvalue

/-- The value of the string literal that `escape` makes of a string. -/
def escapedValue (str : Bytes) : Option Bytes :=
  (escape str).bind fun escaped => literalValue (quote :: escaped ++ [quote])

theorem escapedValue_of_lt {str : Bytes} (hlen : str.length < 2 ^ 31) :
    escapedValue str = some (copyString str) := by
  rw [escapedValue, escape_eq hlen]
  exact literalValue_escapeLoop str

/-- The literal has the value that was escaped exactly when it holds no NUL and is shorter than 2 GiB. -/
theorem literalValue_escape_iff (str : Bytes) :
    escapedValue str = some str ↔ 0 ∉ str ∧ str.length < 2 ^ 31 := by
  by_cases hlen : str.length < 2 ^ 31
  · rw [escapedValue_of_lt hlen, Option.some.injEq, copyString_eq_self_iff, and_iff_left hlen]
  · rw [escapedValue, escape_of_le (Nat.not_lt.mp hlen)]
    exact ⟨nofun, fun h => absurd h.2 hlen⟩

/-- The escaped NUL is read, but the value ends before it. -/
theorem literalValue_nul : escapedValue [97, 0, 98] = some [97] :=
  escapedValue_of_lt (by decide)

end Quirrel.StringLiteral
