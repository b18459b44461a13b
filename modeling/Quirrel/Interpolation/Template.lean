import Quirrel.Strings.Subst

/-!
# Parsing an interpolated string

`SQLexer::ReadString` on the bytes of a literal `$"..."`, after the opening quote or after the `}`
of an expression, and `SQParser::parseStringTemplate`. The literal becomes the call of `subst` on a
format string, in which the `k`-th expression stands as `{k}`.
-/

set_option autoImplicit false

namespace Quirrel.Interpolation

open Quirrel.Strings (openBrace closeBrace)

/-- The bytes of a string. -/
abbrev Bytes := List UInt8

/-- The byte of `"`. -/
def quote : UInt8 := 34

/-- The byte of the back slash. -/
def backslash : UInt8 := 92

/-- The byte of the line end. -/
def newline : UInt8 := 10

/-! ## The lexer -/

/-- The value of a hexadecimal digit. -/
def hexDigit? (c : UInt8) : Option Nat :=
  if 48 ≤ c ∧ c ≤ 57 then some (c.toNat - 48)
  else if 97 ≤ c ∧ c ≤ 102 then some (c.toNat - 87)
  else if 65 ≤ c ∧ c ≤ 70 then some (c.toNat - 55)
  else none

/-- At most `n` hexadecimal digits, behind the value `v` read so far. -/
def hexDigits : Nat → Nat → Bytes → Nat × Bytes
  | n + 1, v, c :: rest =>
    match hexDigit? c with
    | some d => hexDigits n (16 * v + d) rest
    | none => (v, c :: rest)
  | _, v, rest => (v, rest)

/-- `ProcessStringHexEscape` after the letter, with `strtoul` of the digits: there must be one. -/
def hexEscape (maxdigits : Nat) : Bytes → Option (Nat × Bytes)
  | c :: rest => if (hexDigit? c).isSome then some (hexDigits maxdigits 0 (c :: rest)) else none
  | [] => none

/-- `AddUTF8` -/
def addUTF8 (ch : Nat) : Bytes :=
  let byte (n : Nat) : UInt8 := UInt8.ofNat n
  if ch < 0x80 then [byte ch]
  else if ch < 0x800 then [byte ((ch >>> 6) ||| 0xC0), byte ((ch &&& 0x3F) ||| 0x80)]
  else if ch < 0x10000 then
    [byte ((ch >>> 12) ||| 0xE0), byte (((ch >>> 6) &&& 0x3F) ||| 0x80),
      byte ((ch &&& 0x3F) ||| 0x80)]
  else if ch < 0x110000 then
    [byte ((ch >>> 18) ||| 0xF0), byte (((ch >>> 12) &&& 0x3F) ||| 0x80),
      byte (((ch >>> 6) &&& 0x3F) ||| 0x80), byte ((ch &&& 0x3F) ||| 0x80)]
  else []

/-- The single byte of an escape without digits, in the template state. -/
def simpleEscape? (c : UInt8) : Option UInt8 :=
  match Char.ofNat c.toNat with
  | 't' => some 9
  | 'a' => some 7
  | 'b' => some 8
  | 'n' => some 10
  | 'r' => some 13
  | 'v' => some 11
  | 'f' => some 12
  | '0' => some 0
  | '\\' => some backslash
  | '"' => some quote
  | '\'' => some 39
  | '\x7b' => some openBrace
  | '\x7d' => some closeBrace
  | _ => none

/-- The bytes that an escape stands for, after the backslash; `none` is a diagnostic. -/
def readEscape : Bytes → Option (Bytes × Bytes)
  | [] => none
  | c :: rest =>
    if c = 120 then (hexEscape 2 rest).map fun (v, rest) => ([UInt8.ofNat v], rest)
    else if c = 117 then (hexEscape 4 rest).map fun (v, rest) => (addUTF8 v, rest)
    else if c = 85 then (hexEscape 8 rest).map fun (v, rest) => (addUTF8 v, rest)
    else (simpleEscape? c).map fun b => ([b], rest)

theorem hexDigits_length (n v : Nat) (s : Bytes) : (hexDigits n v s).2.length ≤ s.length := by
  induction n generalizing v s with
  | zero => simp [hexDigits]
  | succ n ih =>
    cases s with
    | nil => simp [hexDigits]
    | cons c rest =>
      rw [hexDigits]
      split
      · exact Nat.le_trans (ih _ rest) (Nat.le_succ _)
      · exact Nat.le_refl _

theorem hexEscape_length {n v : Nat} {s rest : Bytes} (h : hexEscape n s = some (v, rest)) :
    rest.length ≤ s.length := by
  cases s with
  | nil => exact nomatch h
  | cons c s =>
    rw [hexEscape] at h
    split at h
    · have hlen := hexDigits_length n 0 (c :: s)
      rw [Option.some.inj h] at hlen
      exact hlen
    · exact nomatch h

theorem readEscape_length {s out rest : Bytes} (h : readEscape s = some (out, rest)) :
    rest.length < s.length := by
  cases s with
  | nil => exact nomatch h
  | cons c s =>
    have hdigits (n : Nat) (f : Nat → Bytes)
        (he : ((hexEscape n s).map fun (v, r) => (f v, r)) = some (out, rest)) :
        rest.length < (c :: s).length := by
      obtain ⟨⟨v, r⟩, hr, heq⟩ := Option.map_eq_some_iff.mp he
      cases heq
      exact Nat.lt_succ_of_le (hexEscape_length hr)
    rw [readEscape] at h
    split at h
    · exact hdigits 2 (fun v => [UInt8.ofNat v]) h
    · split at h
      · exact hdigits 4 addUTF8 h
      · split at h
        · exact hdigits 8 addUTF8 h
        · obtain ⟨b, -, heq⟩ := Option.map_eq_some_iff.mp h
          cases heq
          exact Nat.lt_succ_self _

/-- A piece of the literal, with the bytes that follow it in the source. -/
structure Token where
  /-- `TK_TEMPLATE_SUFFIX`: the closing quote follows the piece, not an expression. -/
  isSuffix : Bool
  svalue : Bytes
  rest : Bytes

/-- Bytes in front of the value of a token. -/
def Token.prepend (bytes : Bytes) (t : Token) : Token :=
  { t with svalue := bytes ++ t.svalue }

/-- `ReadString` in the template state. The brace that opens an expression belongs to the piece
before it. -/
def readString (src : Bytes) : Option Token :=
  match src with
  | [] => none
  | c :: rest =>
    if c = quote then some ⟨true, [], rest⟩
    else if c = 0 ∨ c = newline then none
    else if c = backslash then
      match _h : readEscape rest with
      | some (bytes, rest') => (readString rest').map (.prepend bytes)
      | none => none
    else if c = openBrace then some ⟨false, [openBrace], rest⟩
    else (readString rest).map (.prepend [c])
termination_by src.length
decreasing_by
  · have hlen := readEscape_length _h
    simp only [List.length_cons]
    omega
  · simp

theorem readString_escape {s bytes rest : Bytes} (h : readEscape s = some (bytes, rest)) :
    readString (backslash :: s) = (readString rest).map (.prepend bytes) := by
  rw [readString, if_neg (by decide), if_neg (by decide), if_pos rfl]
  split
  · rename_i bytes' rest' h'
    cases h.symm.trans h'
    rfl
  · rename_i hnone
    exact nomatch h.symm.trans hnone

theorem Token.rest_prepend (bytes : Bytes) (t : Token) : (t.prepend bytes).rest = t.rest := rfl

theorem readString_length (src : Bytes) {t : Token} (h : readString src = some t) :
    t.rest.length < src.length := by
  induction src using readString.induct generalizing t with
  | case1 => exact nomatch (readString.eq_1 ▸ h)
  | case2 rest =>
    rw [readString, if_pos rfl] at h
    cases h
    exact Nat.lt_succ_self _
  | case3 c rest h1 h2 =>
    rw [readString, if_neg h1, if_pos h2] at h
    exact nomatch h
  | case4 rest bytes rest' hesc h1 h2 ih =>
    have hshort := readEscape_length hesc
    rw [readString, if_neg h1, if_neg h2, if_pos rfl] at h
    split at h
    · rename_i bytes' rest'' hesc'
      rw [hesc'] at hesc
      cases hesc
      obtain ⟨u, hu, rfl⟩ := Option.map_eq_some_iff.mp h
      have htail := ih hu
      rw [Token.rest_prepend, List.length_cons]
      omega
    · exact nomatch h
  | case5 rest hesc h1 h2 =>
    rw [readString, if_neg h1, if_neg h2, if_pos rfl] at h
    split at h
    · rename_i bytes' rest'' hesc'
      rw [hesc'] at hesc
      exact nomatch hesc
    · exact nomatch h
  | case6 rest h1 h2 h3 =>
    rw [readString, if_neg h1, if_neg h2, if_neg h3, if_pos rfl] at h
    cases h
    exact Nat.lt_succ_self _
  | case7 c rest h1 h2 h3 h4 ih =>
    rw [readString, if_neg h1, if_neg h2, if_neg h3, if_neg h4] at h
    obtain ⟨u, hu, rfl⟩ := Option.map_eq_some_iff.mp h
    have htail := ih hu
    exact Nat.lt_succ_of_lt htail

/-- The piece before an expression ends with the brace that opens it. -/
theorem svalue_of_not_isSuffix (src : Bytes) {t : Token} (h : readString src = some t)
    (hs : t.isSuffix = false) : t.svalue = t.svalue.dropLast ++ [openBrace] := by
  have hprepend (bytes : Bytes) (u : Token) (hu : u.svalue = u.svalue.dropLast ++ [openBrace]) :
      bytes ++ u.svalue = (bytes ++ u.svalue).dropLast ++ [openBrace] := by
    rw [hu, ← List.append_assoc, List.dropLast_concat]
  induction src using readString.induct generalizing t with
  | case1 => exact nomatch (readString.eq_1 ▸ h)
  | case2 rest =>
    rw [readString, if_pos rfl] at h
    cases h
    exact nomatch hs
  | case3 c rest h1 h2 =>
    rw [readString, if_neg h1, if_pos h2] at h
    exact nomatch h
  | case4 rest bytes rest' hesc h1 h2 ih =>
    rw [readString, if_neg h1, if_neg h2, if_pos rfl] at h
    split at h
    · rename_i bytes' rest'' hesc'
      rw [hesc'] at hesc
      cases hesc
      obtain ⟨u, hu, rfl⟩ := Option.map_eq_some_iff.mp h
      exact hprepend bytes u (ih hu hs)
    · exact nomatch h
  | case5 rest hesc h1 h2 =>
    rw [readString, if_neg h1, if_neg h2, if_pos rfl] at h
    split at h
    · rename_i bytes' rest'' hesc'
      rw [hesc'] at hesc
      exact nomatch hesc
    · exact nomatch h
  | case6 rest h1 h2 h3 =>
    rw [readString, if_neg h1, if_neg h2, if_neg h3, if_pos rfl] at h
    cases h
    rfl
  | case7 c rest h1 h2 h3 h4 ih =>
    rw [readString, if_neg h1, if_neg h2, if_neg h3, if_neg h4] at h
    obtain ⟨u, hu, rfl⟩ := Option.map_eq_some_iff.mp h
    exact hprepend [c] u (ih hu hs)

/-! ## The parser -/

variable {ε : Type}

/-- The parser of an expression. What it leaves begins after the `}` that follows the expression. -/
structure ExprParser (ε : Type) where
  expression : Bytes → Option (ε × Bytes)
  consumes : ∀ {src e rest}, expression src = some (e, rest) → rest.length < src.length

/-- The bytes before the first zero byte: a string that is passed on without its length. -/
def cString (s : Bytes) : Bytes :=
  s.takeWhile (· ≠ 0)

/-- `snprintf` of `%d` -/
def printIndex (n : Nat) : Bytes :=
  (Nat.toDigits 10 n).map fun c => UInt8.ofNat c.toNat

/-- The pieces of a literal as the lexer delivers them, with the expressions between them. -/
inductive Template (ε : Type) where
  | last (svalue : Bytes)
  | cons (svalue : Bytes) (arg : ε) (tail : Template ε)

/-- The loop of `parseStringTemplate`: a piece, and unless it is the last one an expression. -/
def readTemplate (P : ExprParser ε) (src : Bytes) : Option (Template ε × Bytes) :=
  match _h : readString src with
  | none => none
  | some t =>
    if t.isSuffix then some (.last t.svalue, t.rest)
    else
      match _he : P.expression t.rest with
      | none => none
      | some (arg, rest) =>
        (readTemplate P rest).map fun (tail, rest) => (.cons t.svalue arg tail, rest)
termination_by src.length
decreasing_by
  have hread := readString_length src _h
  have hexpr := P.consumes _he
  omega

theorem readTemplate_last {P : ExprParser ε} {src svalue rest : Bytes}
    (h : readString src = some ⟨true, svalue, rest⟩) :
    readTemplate P src = some (.last svalue, rest) := by
  rw [readTemplate]
  split
  · rename_i hnone
    exact nomatch h.symm.trans hnone
  · rename_i t ht
    cases h.symm.trans ht
    rfl

theorem readTemplate_cons {P : ExprParser ε} {src svalue rest rest' rest'' : Bytes} {arg : ε}
    {tail : Template ε} (h : readString src = some ⟨false, svalue, rest⟩)
    (he : P.expression rest = some (arg, rest'))
    (ht : readTemplate P rest' = some (tail, rest'')) :
    readTemplate P src = some (.cons svalue arg tail, rest'') := by
  rw [readTemplate]
  split
  · rename_i hnone
    exact nomatch h.symm.trans hnone
  · rename_i t hsome
    cases h.symm.trans hsome
    simp only [Bool.false_eq_true, if_false]
    split
    · rename_i hnone
      exact nomatch he.symm.trans hnone
    · rename_i a r hsome'
      cases he.symm.trans hsome'
      rw [ht]
      rfl

/-- The expressions, in order. -/
def Template.args : Template ε → List ε
  | .last _ => []
  | .cons _ arg tail => arg :: tail.args

/-- What the loop appends to `formatString`, with the expressions numbered from `idx` on. -/
def Template.format (idx : Nat) : Template ε → Bytes
  | .last svalue => cString svalue
  | .cons svalue _ tail =>
    cString svalue ++ printIndex idx ++ [closeBrace] ++ tail.format (idx + 1)

/-- The expression that a literal is parsed to. -/
inductive TemplateExpr (ε : Type) where
  | literal (s : Bytes)
  | callSubst (fmt : Bytes) (args : List ε)

/-- `SQParser::parseStringTemplate`, after the opening quote. -/
def parseStringTemplate (P : ExprParser ε) (src : Bytes) : Option (TemplateExpr ε × Bytes) :=
  (readTemplate P src).map fun (t, rest) =>
    let fmt := cString (t.format 0)
    (if t.args.isEmpty then .literal fmt else .callSubst fmt t.args, rest)

/-! ## The parts of the literal -/

/-- The unescaped literal parts: the pieces without the braces that open expressions. -/
def Template.parts : Template ε → List Bytes
  | .last svalue => [svalue]
  | .cons svalue _ tail => svalue.dropLast :: tail.parts

/-- Every piece before an expression ends with the brace that opens it. -/
def Template.Braced : Template ε → Prop
  | .last _ => True
  | .cons svalue _ tail => svalue = svalue.dropLast ++ [openBrace] ∧ tail.Braced

theorem readTemplate_braced (P : ExprParser ε) (src : Bytes) {t : Template ε} {rest : Bytes}
    (h : readTemplate P src = some (t, rest)) : t.Braced := by
  induction src using readTemplate.induct P generalizing t rest with
  | case1 src hread =>
    rw [readTemplate] at h
    split at h
    · exact nomatch h
    · rename_i u hu
      exact nomatch hread.symm.trans hu
  | case2 src u hread hsuffix =>
    rw [readTemplate] at h
    split at h
    · exact nomatch h
    · rename_i u' hu
      cases hread.symm.trans hu
      rw [if_pos hsuffix] at h
      cases h
      trivial
  | case3 src u hread hsuffix hexpr =>
    rw [readTemplate] at h
    split at h
    · exact nomatch h
    · rename_i u' hu
      cases hread.symm.trans hu
      rw [if_neg hsuffix] at h
      split at h
      · exact nomatch h
      · rename_i arg rest' he
        exact nomatch hexpr.symm.trans he
  | case4 src u hread hsuffix arg rest' hexpr ih =>
    rw [readTemplate] at h
    split at h
    · exact nomatch h
    · rename_i u' hu
      cases hread.symm.trans hu
      rw [if_neg hsuffix] at h
      split at h
      · exact nomatch h
      · rename_i arg' rest'' he
        cases hexpr.symm.trans he
        obtain ⟨⟨tail, r⟩, htail, heq⟩ := Option.map_eq_some_iff.mp h
        cases heq
        exact ⟨svalue_of_not_isSuffix src hread (Bool.eq_false_iff.mpr hsuffix), ih htail⟩

end Quirrel.Interpolation
