import Quirrel.Array.Methods
import Quirrel.Lib.Splitting
import Quirrel.Vm.Arith

/-!
# Searching and splitting strings

`split`, `join`, `replace` and `indexof` of the string class, over strings of any bytes, with the C
functions that they scan with. A string is followed by a NUL in memory, so a scan that stops at a
NUL stops at the end of the string at the latest.
-/

set_option autoImplicit false

namespace Quirrel.Strings

open Quirrel.Lib Quirrel.Vm Quirrel.Array

/-- What a native function ends in. In a fault it writes outside its memory. -/
inductive Native (α : Type) where
  | fault
  | error (msg : String)
  | value (a : α)

/-- A value, or a fault where there is none. -/
def Native.ofOption {α : Type} : Option α → Native α
  | some a => .value a
  | none => .fault

/-! ## The C library -/

/-- The string that C sees: the bytes in front of the first NUL. -/
def cText (s : List UInt8) : List UInt8 := s.takeWhile (· ≠ 0)

/-- `strncmp`, on the bytes before the terminator that follows every string. Of a positive or a
negative result only the sign is specified. -/
def strncmp : Nat → List UInt8 → List UInt8 → Int
  | 0, _, _ => 0
  | n + 1, a, b =>
    if a.headD 0 = b.headD 0 then
      if a.headD 0 = 0 then 0 else strncmp n a.tail b.tail
    else (a.headD 0).toNat - (b.headD 0).toNat

/-- `strstr`, as the offset of the place in the string that is searched. -/
def strstr (haystack needle : List UInt8) : Option Nat :=
  firstIndex (cText needle) (cText haystack)

/-- `sq_isspace` -/
def sqIsspace (c : UInt8) : Bool :=
  c = 32 || c = 9 || c = 10 || c = 11 || c = 12 || c = 13

/-! ## `indexof` -/

/-- `_string_scan_for_substring`: `-1` where there is no place. -/
def stringScanForSubstring (cast : SQFloat → SQInteger) (str substr : List UInt8)
    (start : Option SQNumber) : Native Int :=
  if substr.length < 1 then .error "empty substring"
  else
    let startIdx := match start with
      | some n => (n.tointeger cast).toInt
      | none => 0
    if (str.length : Int) > startIdx ∧ startIdx ≥ 0 then
      match strstr (str.drop startIdx.toNat) substr with
      | some ret => .value (startIdx + ret)
      | none => .value (-1)
    else .value (-1)

/-- `string_indexof`, with `_push_scan_index`: null where there is no place. -/
def stringIndexof (cast : SQFloat → SQInteger) (str substr : List UInt8)
    (start : Option SQNumber) : Native (Option Int) :=
  match stringScanForSubstring cast str substr start with
  | .value index => .value (if index ≥ 0 then some index else none)
  | .error msg => .error msg
  | .fault => .fault

/-! ## `replace` -/

/-- `len` bytes at `pos` give way to `toStr`: the `memmove` and `memcpy` in a buffer that has been
reallocated before, if it has to grow. -/
def replaceBytes (s : List UInt8) (pos len : Nat) (toStr : List UInt8) : List UInt8 :=
  s.take pos ++ toStr ++ s.drop (pos + len)

/-- `replace_all` from `pos` on -/
def replaceAll (fromStr : List UInt8) (hfrom : 0 < fromStr.length) (toStr s : List UInt8)
    (pos : Nat) : List UInt8 :=
  if _ : pos + fromStr.length ≤ s.length then
    if (s.drop pos).take fromStr.length = fromStr then
      replaceAll fromStr hfrom toStr (replaceBytes s pos fromStr.length toStr) (pos + toStr.length)
    else replaceAll fromStr hfrom toStr s (pos + 1)
  else s
termination_by s.length - pos
decreasing_by
  · simp only [replaceBytes, List.length_append, List.length_take, List.length_drop]
    omega
  · omega

/-- `string_replace` -/
def stringReplace (s fromStr toStr : List UInt8) : List UInt8 :=
  if h : 0 < fromStr.length then replaceAll fromStr h toStr s 0 else s

/-! ## `join` -/

/-- The filter of `join`: a boolean, or a function with its answers for the items. -/
inductive JoinFilter where
  | none
  | bool (b : Bool)
  | callback (run : SQObject → Except Unit SQObject)

/-- The filter lets the item pass. -/
def JoinFilter.use (isFalse : SQObject → Bool) : JoinFilter → SQObject → Except Unit Bool
  | .none, _ => .ok true
  | .bool b, item => .ok (!(b && (item == .null || item == .string [])))
  | .callback run, item => (run item).map fun r => !isFalse r

/-- Why `join` has no result. -/
inductive JoinError where
  | callback
  | conversion

variable (vm : VmOps) (isFalse : SQObject → Bool)

/-- The strings of the items that pass the filter. -/
def joinStrings (flt : JoinFilter) : List SQObject → Except JoinError (List (List UInt8))
  | [] => .ok []
  | item :: items =>
    match flt.use isFalse item with
    | .error _ => .error .callback
    | .ok false => joinStrings flt items
    | .ok true =>
      match vm.toString item with
      | .error _ => .error .conversion
      | .ok s => (joinStrings flt items).map (s :: ·)

/-- `buf_concat`: what it writes one after another; `i` strings are written. -/
def bufConcat (sep : List UInt8) : Nat → List UInt8 → List (List UInt8) → List UInt8
  | _, out, [] => out
  | i, out, s :: strings =>
    bufConcat sep (i + 1) (out ++ (if i = 0 then [] else sep) ++ s) strings

/-- The error of `join`. -/
def failedToConvert : String :=
  "Failed to convert array item to string"

/-- `string_join`. The error of a callback is already raised. -/
def stringJoin (sep : List UInt8) (items : List SQObject) (flt : JoinFilter) : Native (List UInt8) :=
  match joinStrings vm isFalse flt items with
  | .error .callback => .error ""
  | .error .conversion => .error failedToConvert
  | .ok [] => .value []
  | .ok (s :: strings) =>
    let resLen := ((s :: strings).map List.length).sum + sep.length * strings.length
    .ofOption do
      let res ← (SqVector.empty : SqVector UInt8).resize (sizeType (.ofNat 64 resLen)) 0
      let res ← res.store (bufConcat sep 0 [] (s :: strings))
      pure res.vals

/-! ## `split` -/

/-- The string of `n` bytes from `start` on. -/
def substring (s : List UInt8) (start n : Nat) : SQObject := .string ((s.drop start).take n)

/-- The loop of `string_split` at a separator -/
def splitLoop (s sep : List UInt8) (hsep : 0 < sep.length) (start pos : Nat)
    (res : SqVector SQObject) : Option (SqVector SQObject) :=
  if _ : pos ≤ s.length then
    if s.length < pos + sep.length then res.pushBack (substring s start (s.length - start))
    else if strncmp sep.length (s.drop pos) sep = 0 then do
      let res ← res.pushBack (substring s start (pos - start))
      splitLoop s sep hsep (pos + sep.length) (pos + sep.length) res
    else splitLoop s sep hsep start (pos + 1) res
  else some res
termination_by s.length + 1 - pos

/-- The loop of `string_split` at white space -/
def splitSpaceLoop (s : List UInt8) (start pos : Nat) (res : SqVector SQObject) :
    Option (SqVector SQObject) :=
  if _ : pos ≤ s.length then
    if pos = s.length ∨ sqIsspace (s.getD pos 0) then do
      let res ← if start < pos then res.pushBack (substring s start (pos - start)) else some res
      splitSpaceLoop s (pos + 1) (pos + 1) res
    else splitSpaceLoop s start (pos + 1) res
  else some res
termination_by s.length + 1 - pos

/-- `string_split`. Further arguments are not read. -/
def stringSplit (s : List UInt8) : List (List UInt8) → Native (SqVector SQObject)
  | [] => .ofOption (splitSpaceLoop s 0 0 .empty)
  | sep :: _ =>
    if h : 0 < sep.length then .ofOption (splitLoop s sep h 0 0 .empty)
    else .error "empty separator"

end Quirrel.Strings
