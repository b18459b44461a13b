import Quirrel.Array.Basic

/-!
# `format`

`sqstd_format`: the loop over the format string, with the scratch buffer that it writes the result
to and the buffer `fmt` for one directive. The run leaves a record of its accesses, with the size
that the scratch buffer had been requested with at that moment. What `snprintf` prints is a
parameter. The configured `SQFloat` is the 32-bit one.
-/

set_option autoImplicit false

namespace Quirrel.Format

open Quirrel.Vm Quirrel.Array

/-- An access of `sqstd_format`: to the format string, to `fmt`, to the scratch buffer of the given
size, or a call of `snprintf` at a position of it with a bound. Where consecutive indices are
accessed, the greatest stands for them. -/
inductive Access where
  | readFormat (index : Nat)
  | writeFmt (index : Nat)
  | writeDest (index : Int) (size : Nat)
  | snprintf (pos : Int) (bound size : Nat)
  deriving DecidableEq

/-- The argument that is passed to `snprintf`. -/
inductive FormatArg where
  | string (s : List UInt8)
  | integer (i : SQInteger)
  | float (f : SQFloat)
  deriving DecidableEq

/-- The C library: the text that `snprintf` prints for a directive, if there is room. -/
abbrev Printf := List UInt8 → FormatArg → List UInt8

/-- The conversion of a float that is out of the range of an integer. -/
abbrev Cast := SQFloat → SQInteger

/-- `MAX_FORMAT_LEN` -/
def maxFormatLen : Nat := 20

/-- `MAX_WFORMAT_LEN` -/
def maxWformatLen : Nat := 3

/-- `ADDITIONAL_FORMAT_SPACE` -/
def additionalFormatSpace : Nat := 100

/-- The size of `fmt`. -/
def fmtSize : Nat := maxFormatLen + 5

/-! ## `validate_format` -/

/-- The byte of `%`. -/
def percent : UInt8 := 37

/-- The byte of `.`. -/
def dot : UInt8 := 46

/-- `isfmtchr` -/
def isFmtChr (c : UInt8) : Bool := c = 45 || c = 43 || c = 32 || c = 35 || c = 48

/-- `isdigit` -/
def isDigit (c : UInt8) : Bool := 48 ≤ c && c ≤ 57

/-- A character of the format string, which a NUL follows. -/
def charAt (format : List UInt8) (n : Nat) : UInt8 := format.getD n 0

theorem lt_length_of_charAt {format : List UInt8} {n : Nat} (h : charAt format n ≠ 0) :
    n < format.length := by
  by_contra hn
  exact h (by rw [charAt, List.getD_eq_getElem?_getD, List.getElem?_eq_none (by omega),
    Option.getD_none])

/-- The characters from index `a` up to index `b`. -/
def slice (format : List UInt8) (a b : Nat) : List UInt8 := (format.drop a).take (b - a)

/-- The value that `strtol` finds in decimal digits. -/
def decimal (digits : List UInt8) : Nat := digits.foldl (fun v c => v * 10 + (c.toNat - 48)) 0

/-- The loop over the flags -/
def skipFlags (format : List UInt8) (n : Nat) : Nat :=
  if hc : isFmtChr (charAt format n) then skipFlags format (n + 1) else n
termination_by format.length - n
decreasing_by
  have : n < format.length := lt_length_of_charAt fun h0 => by
    rw [h0] at hc
    exact absurd hc (by decide)
  omega

/-- The loop over the digits of a width or a precision, with `room` places left in `swidth`. -/
def scanDigits (format : List UInt8) : Nat → Nat → List UInt8 → Nat × Option (List UInt8)
  | 0, n, _ => (n, none)
  | room + 1, n, swidth =>
    if isDigit (charAt format n) then scanDigits format room (n + 1) (swidth ++ [charAt format n])
    else (n, some swidth)

/-- A directive: the index of its conversion character, the contents of `fmt`, and the sum of width
and precision. -/
structure Validated where
  n : Nat
  fmt : List UInt8
  width : Nat

/-- The end of `validate_format`: the conversion with a `%` in front, when it fits. -/
def finishFormat (format : List UInt8) (start n width : Nat) : Except String Validated :=
  if maxFormatLen < n - start then .error "format too long"
  else .ok ⟨n, percent :: slice format start n ++ [charAt format n], width⟩

/-- `validate_format`, with the index that it reads up to. -/
def validateFormat (format : List UInt8) (start : Nat) : Nat × Except String Validated :=
  match scanDigits format maxWformatLen (skipFlags format start) [] with
  | (n, none) => (n - 1, .error "width format too long")
  | (n, some swidth) =>
    if charAt format n = dot then
      match scanDigits format maxWformatLen (n + 1) [] with
      | (n, none) => (n - 1, .error "precision format too long")
      | (n, some sprec) => (n, finishFormat format start n (decimal swidth + decimal sprec))
    else (n, finishFormat format start n (decimal swidth))

theorem le_skipFlags (format : List UInt8) (n : Nat) : n ≤ skipFlags format n := by
  fun_induction skipFlags format n with
  | case1 n _ ih => exact Nat.le_of_succ_le ih
  | case2 n => exact Nat.le_refl n

theorem le_scanDigits (format : List UInt8) (room n : Nat) (swidth : List UInt8) :
    n ≤ (scanDigits format room n swidth).1 := by
  induction room generalizing n swidth with
  | zero => exact Nat.le_refl n
  | succ room ih =>
    rw [scanDigits]
    split
    · exact Nat.le_of_succ_le (ih _ _)
    · exact Nat.le_refl n

theorem finishFormat_n {format : List UInt8} {start n width : Nat} {v : Validated}
    (h : finishFormat format start n width = .ok v) : v.n = n := by
  rw [finishFormat] at h
  split at h
  · cases h
  · cases h
    rfl

theorem le_validateFormat {format : List UInt8} {start top : Nat} {v : Validated}
    (h : validateFormat format start = (top, .ok v)) : start ≤ v.n := by
  have hflags := le_skipFlags format start
  have hwidth := le_scanDigits format maxWformatLen (skipFlags format start) []
  rw [validateFormat] at h
  split at h
  · cases h
  · rename_i n swidth hscan
    rw [hscan] at hwidth
    split at h
    · have hprec := le_scanDigits format maxWformatLen (n + 1) []
      split at h
      · cases h
      · rename_i n' sprec hscan'
        rw [hscan'] at hprec
        have hn := finishFormat_n (Prod.ext_iff.1 h).2
        dsimp only at hwidth hprec
        omega
    · have hn := finishFormat_n (Prod.ext_iff.1 h).2
      dsimp only at hwidth
      omega

/-! ## One directive -/

/-- A directive with its argument: the index of the character that follows it in the format string,
the contents of `fmt`, the argument, and the room that it is given. -/
structure Converted where
  n : Nat
  fmt : List UInt8
  arg : FormatArg
  addlen : Nat
  deriving DecidableEq

/-- `sq_getstring` -/
def getstring : SQObject → Option (List UInt8)
  | .string s => some s
  | _ => none

/-- `sq_getinteger` -/
def getinteger (cast : Cast) : SQObject → Option SQInteger
  | .integer i => some i
  | .float f => some (floatToInteger cast f)
  | .bool b => some (if b then 1 else 0)
  | _ => none

/-- `sq_getfloat` -/
def getfloat : SQObject → Option SQFloat
  | .integer i => some (.ofInt i.toInt)
  | .float f => some f
  | _ => none

/-- `_PRINT_INT_PREC` -/
def printIntPrec : List UInt8 := [108, 108]

/-- The contents of `fmt` with `_PRINT_INT_PREC` in front of the conversion character. -/
def withIntPrec (fmt : List UInt8) : List UInt8 :=
  fmt.take (fmt.length - 1) ++ printIntPrec ++ fmt.drop (fmt.length - 1)

/-- `'i'`, `'d'`, `'o'`, `'u'`, `'x'` and `'X'` -/
def integerConversions : List UInt8 := [105, 100, 111, 117, 120, 88]

/-- `'f'`, `'g'`, `'G'`, `'e'` and `'E'` -/
def floatConversions : List UInt8 := [102, 103, 71, 101, 69]

/-- The conversion `s`. -/
def convertString (v : Validated) (o : SQObject) : Except String Converted :=
  match getstring o with
  | none => .error "string expected for the specified format"
  | some s => .ok ⟨v.n + 1, v.fmt, .string s, s.length + (v.width + 1)⟩

/-- The integer conversions, with the format they pass on. -/
def convertInteger (cast : Cast) (v : Validated) (fmt : List UInt8) (o : SQObject) :
    Except String Converted :=
  match getinteger cast o with
  | none => .error "integer expected for the specified format"
  | some i => .ok ⟨v.n + 1, fmt, .integer i, additionalFormatSpace + (v.width + 1)⟩

/-- The float conversions. -/
def convertFloat (v : Validated) (o : SQObject) : Except String Converted :=
  match getfloat o with
  | none => .error "float expected for the specified format"
  | some f => .ok ⟨v.n + 1, v.fmt, .float f, additionalFormatSpace + (v.width + 1)⟩

/-- The `switch` over the conversion character `c`. -/
def convert (cast : Cast) (v : Validated) (c : UInt8) (o : SQObject) :
    List Access × Except String Converted :=
  if c = 115 then ([], convertString v o)
  else if c ∈ integerConversions then
    ([.writeFmt (v.fmt.length + 2)], convertInteger cast v (withIntPrec v.fmt) o)
  else if c = 99 then ([], convertInteger cast v v.fmt o)
  else if c ∈ floatConversions then ([], convertFloat v o)
  else ([], .error "invalid format")

/-- A directive whose first character behind the `%` has index `n`. -/
def directive (cast : Cast) (format : List UInt8) (params : List SQObject) (n : Nat) :
    List Access × Except String Converted :=
  match params with
  | [] => ([], .error "not enough parameters for the given format string")
  | o :: _ =>
    match validateFormat format n with
    | (top, .error e) => ([.writeFmt 0, .readFormat top], .error e)
    | (top, .ok v) =>
      let r := convert cast v (charAt format v.n) o
      (.readFormat top :: .writeFmt (v.n - n + 2) :: r.1, r.2)

theorem convertString_ok {v : Validated} {o : SQObject} {c : Converted}
    (h : convertString v o = .ok c) :
    ∃ s, getstring o = some s ∧ c = ⟨v.n + 1, v.fmt, .string s, s.length + (v.width + 1)⟩ := by
  rw [convertString] at h
  split at h
  · cases h
  · rename_i s hs
    cases h
    exact ⟨s, hs, rfl⟩

theorem convertInteger_ok {cast : Cast} {v : Validated} {fmt : List UInt8} {o : SQObject}
    {c : Converted} (h : convertInteger cast v fmt o = .ok c) :
    ∃ i, getinteger cast o = some i ∧
      c = ⟨v.n + 1, fmt, .integer i, additionalFormatSpace + (v.width + 1)⟩ := by
  rw [convertInteger] at h
  split at h
  · cases h
  · rename_i i hi
    cases h
    exact ⟨i, hi, rfl⟩

theorem convertFloat_ok {v : Validated} {o : SQObject} {c : Converted}
    (h : convertFloat v o = .ok c) :
    ∃ f, getfloat o = some f ∧
      c = ⟨v.n + 1, v.fmt, .float f, additionalFormatSpace + (v.width + 1)⟩ := by
  rw [convertFloat] at h
  split at h
  · cases h
  · rename_i f hf
    cases h
    exact ⟨f, hf, rfl⟩

/-- What the `switch` leads to. -/
theorem convert_ok {cast : Cast} {v : Validated} {ch : UInt8} {o : SQObject} {c : Converted}
    (h : (convert cast v ch o).2 = .ok c) :
    (ch = 115 ∧ convertString v o = .ok c) ∨
    (ch ∈ integerConversions ∧ convertInteger cast v (withIntPrec v.fmt) o = .ok c) ∨
    (ch = 99 ∧ convertInteger cast v v.fmt o = .ok c) ∨
    (ch ∈ floatConversions ∧ convertFloat v o = .ok c) := by
  rw [convert] at h
  split at h
  · exact .inl ⟨‹_›, h⟩
  · split at h
    · exact .inr (.inl ⟨‹_›, h⟩)
    · split at h
      · exact .inr (.inr (.inl ⟨‹_›, h⟩))
      · split at h
        · exact .inr (.inr (.inr ⟨‹_›, h⟩))
        · cases h

theorem convert_n {cast : Cast} {v : Validated} {ch : UInt8} {o : SQObject} {c : Converted}
    (h : (convert cast v ch o).2 = .ok c) : c.n = v.n + 1 := by
  rcases convert_ok h with ⟨-, h⟩ | ⟨-, h⟩ | ⟨-, h⟩ | ⟨-, h⟩
  · obtain ⟨s, -, rfl⟩ := convertString_ok h
    rfl
  · obtain ⟨i, -, rfl⟩ := convertInteger_ok h
    rfl
  · obtain ⟨i, -, rfl⟩ := convertInteger_ok h
    rfl
  · obtain ⟨f, -, rfl⟩ := convertFloat_ok h
    rfl

theorem lt_directive {cast : Cast} {format : List UInt8} {params : List SQObject} {n : Nat}
    {c : Converted} (h : (directive cast format params n).2 = .ok c) : n < c.n := by
  cases params with
  | nil => cases h
  | cons o params =>
    rw [directive] at h
    split at h
    · cases h
    · rename_i top v hv
      have := le_validateFormat hv
      have := convert_n h
      omega

/-! ## The loop -/

/-- The scratch buffer, the index of the next character in it, and the size it was requested with. -/
structure Output where
  dest : Int → UInt8
  i : Int
  allocated : Nat

/-- `dest[i++] = c` -/
def Output.write (o : Output) (c : UInt8) : Output :=
  { o with dest := Function.update o.dest o.i c, i := o.i + 1 }

/-- `INT_MAX` -/
def intMax : Nat := 2 ^ 31 - 1

/-- What `snprintf` returns: the length of the text, or a negative number where an `int` cannot say
it. -/
def returned (text : List UInt8) : Int := if text.length ≤ intMax then text.length else -1

/-- What `snprintf` leaves in the buffer: as much of the text as there is room for, and a NUL. -/
def printed (dest : Int → UInt8) (pos : Int) (bound : Nat) (text : List UInt8) : Int → UInt8 :=
  fun j =>
    if pos ≤ j ∧ j < pos + min text.length (bound - 1) then text.getD (j - pos).toNat 0
    else if j = pos + min text.length (bound - 1) then 0
    else dest j

/-- The byte of `,`. -/
def comma : UInt8 := 44

/-- The loop that replaces commas in `len` characters from `pos` on. -/
def dotCommas (dest : Int → UInt8) (pos : Int) (len : Nat) : Int → UInt8 :=
  fun j => if pos ≤ j ∧ j < pos + len ∧ dest j = comma then dot else dest j

/-- The commas that the loop replaces. -/
def commas (dest : Int → UInt8) (pos : Int) (len : Nat) : List Nat :=
  (List.range len).filter fun (k : Nat) => dest (pos + k) = comma

/-- Requests the room for a directive and prints it. -/
def Output.print (printf : Printf) (o : Output) (c : Converted) : List Access × Output :=
  let text := printf c.fmt c.arg
  let allocated := o.allocated + (c.addlen + 1)
  let dest := printed o.dest o.i allocated text
  let call := .snprintf o.i allocated allocated
  match c.arg with
  | .float _ =>
    let len := (returned text).toNat
    (call :: (commas dest o.i len).map fun (k : Nat) => .writeDest (o.i + k) allocated,
      ⟨dotCommas dest o.i len, o.i + len, allocated⟩)
  | _ => ([call], ⟨dest, o.i + returned text, allocated⟩)

/-- The loop of `sqstd_format`, with the accesses it makes to the format and to the destination.
-/
def formatLoop (printf : Printf) (cast : Cast) (format : List UInt8) (n : Nat)
    (params : List SQObject) (o : Output) : List Access × Except String Output :=
  if n < format.length then
    if charAt format n ≠ percent then
      let r := formatLoop printf cast format (n + 1) params (o.write (charAt format n))
      (.readFormat n :: .writeDest o.i o.allocated :: r.1, r.2)
    else if charAt format (n + 1) = percent then
      let r := formatLoop printf cast format (n + 2) params (o.write percent)
      (.readFormat (n + 1) :: .writeDest o.i o.allocated :: r.1, r.2)
    else
      match hd : (directive cast format params (n + 1)).2 with
      | .error e => (.readFormat (n + 1) :: (directive cast format params (n + 1)).1, .error e)
      | .ok c =>
        let p := o.print printf c
        let r := formatLoop printf cast format c.n params.tail p.2
        (.readFormat (n + 1) :: (directive cast format params (n + 1)).1 ++ p.1 ++ r.1, r.2)
  else ([.writeDest o.i o.allocated], .ok { o with dest := Function.update o.dest o.i 0 })
termination_by format.length - n
decreasing_by
  · omega
  · omega
  · have := lt_directive hd
    omega

/-- `sqstd_format` on a format string and the parameters behind it. The scratch buffer holds `dest`
before. -/
def sqstdFormat (printf : Printf) (cast : Cast) (dest : Int → UInt8) (format : List UInt8)
    (params : List SQObject) : List Access × Except String Output :=
  formatLoop printf cast format 0 params ⟨dest, 0, format.length + 2⟩

/-- `*outlen` -/
def Output.outlen (o : Output) : Int := o.i

/-- The characters that the caller takes. -/
def Output.text (o : Output) : List UInt8 := (List.range o.outlen.toNat).map fun (k : Nat) => o.dest k

end Quirrel.Format
