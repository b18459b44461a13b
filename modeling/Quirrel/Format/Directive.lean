import Quirrel.Format.Basic
import Quirrel.Lib.FloatOrder

/-!
# The directives that `format` accepts

What `validate_format` copies to `fmt` is a directive of the C library's grammar, with the width and
the precision that it adds up (`validateFormat_ok`); it stays inside the format string and `fmt`. Under
the bounds of the C standard on what a directive prints (`StandardBounds`), the room that is given to a
directive holds what it prints (`length_printf_le`).
-/

set_option autoImplicit false

namespace Quirrel.Format

open Quirrel.Lib Quirrel.Vm Quirrel.Array

/-! ## Slices -/

theorem slice_self (format : List UInt8) (a : Nat) : slice format a a = [] := by
  rw [slice, Nat.sub_self, List.take_zero]

/-- Two slices that meet. -/
theorem slice_append (format : List UInt8) {a b c : Nat} (hab : a ≤ b) (hbc : b ≤ c) :
    slice format a b ++ slice format b c = slice format a c := by
  have hdrop : format.drop b = (format.drop a).drop (b - a) := by
    rw [List.drop_drop]
    congr 1
    omega
  rw [slice, slice, slice, hdrop, ← List.take_add]
  congr 1
  omega

theorem slice_succ {format : List UInt8} {a : Nat} (h : a < format.length) :
    slice format a (a + 1) = [charAt format a] := by
  rw [slice, Nat.add_sub_cancel_left, List.drop_eq_getElem_cons h, charAt,
    List.getD_eq_getElem?_getD, List.getElem?_eq_getElem h]
  rfl

/-- The first byte of a slice. -/
theorem slice_cons {format : List UInt8} {a b : Nat} (h : a < format.length) (hab : a < b) :
    slice format a b = charAt format a :: slice format (a + 1) b := by
  rw [← slice_append format (Nat.le_succ a) hab, slice_succ h]
  rfl

/-- The length of a slice. -/
theorem length_slice {format : List UInt8} {a b : Nat} (hb : b ≤ format.length) :
    (slice format a b).length = b - a := by
  rw [slice, List.length_take, List.length_drop]
  omega

/-! ## What the loops of `validate_format` skip -/

theorem lt_length_of_isDigit {format : List UInt8} {n : Nat} (h : isDigit (charAt format n)) :
    n < format.length :=
  lt_length_of_charAt fun h0 => by
    rw [h0] at h
    exact absurd h (by decide)

/-- The flags are passed. -/
theorem skipFlags_spec {format : List UInt8} {n : Nat} (hn : n ≤ format.length) :
    skipFlags format n ≤ format.length ∧
      (slice format n (skipFlags format n)).all isFmtChr := by
  fun_induction skipFlags format n with
  | case1 n hc ih =>
    have hlt : n < format.length := lt_length_of_charAt fun h0 => by
      rw [h0] at hc
      exact absurd hc (by decide)
    obtain ⟨hle, hall⟩ := ih hlt
    refine ⟨hle, ?_⟩
    rw [slice_cons hlt (le_skipFlags format (n + 1)), List.all_cons, hc, hall]
    rfl
  | case2 n hc =>
    rw [slice_self]
    exact ⟨hn, rfl⟩

/-- Digits are passed, as many as there is room for. -/
theorem scanDigits_spec {format : List UInt8} (room : Nat) {n : Nat} (swidth : List UInt8)
    (hn : n ≤ format.length) :
    (scanDigits format room n swidth).1 ≤ format.length ∧
      (slice format n (scanDigits format room n swidth).1).all isDigit ∧
      ∀ s ∈ (scanDigits format room n swidth).2,
        s = swidth ++ slice format n (scanDigits format room n swidth).1 ∧
          s.length < swidth.length + room := by
  induction room generalizing n swidth with
  | zero =>
    rw [scanDigits, slice_self]
    exact ⟨hn, rfl, fun _ hs => by cases hs⟩
  | succ room ih =>
    rw [scanDigits]
    by_cases hd : isDigit (charAt format n)
    · have hlt := lt_length_of_isDigit hd
      obtain ⟨hle, hall, htext⟩ := ih (swidth ++ [charAt format n]) hlt
      rw [if_pos hd]
      refine ⟨hle, ?_, fun s hs => ?_⟩
      · rw [slice_cons hlt (le_scanDigits format room (n + 1) _), List.all_cons, hd, hall]
        rfl
      · obtain ⟨htext, hlen⟩ := htext s hs
        rw [List.length_append, List.length_singleton] at hlen
        refine ⟨?_, by omega⟩
        rw [htext, slice_cons hlt (le_scanDigits format room (n + 1) _), List.append_assoc]
        rfl
    · rw [if_neg hd]
      refine ⟨hn, ?_, fun s hs => ?_⟩
      · rw [slice_self]
        rfl
      · cases hs
        rw [slice_self, List.append_nil]
        exact ⟨rfl, by omega⟩

/-! ## Directives -/

/-- A precision behind its dot. -/
def precText : Option (List UInt8) → List UInt8
  | none => []
  | some p => dot :: p

/-- A directive as the C library reads it: flags, a width, a precision, a length modifier and a
conversion character. -/
def directiveText (flags width : List UInt8) (prec : Option (List UInt8)) (modifier : List UInt8)
    (conv : UInt8) : List UInt8 :=
  percent :: (flags ++ width ++ precText prec ++ modifier) ++ [conv]

/-- The value of a precision, which is 0 where there is none. -/
def precision (prec : Option (List UInt8)) : Nat := decimal (prec.getD [])

/-- A directive is made of flag characters and digits, at most two of them in a width or a
precision. -/
structure IsDirective (flags width : List UInt8) (prec : Option (List UInt8)) : Prop where
  flags_all : flags.all isFmtChr
  width_all : width.all isDigit
  width_length : width.length < maxWformatLen
  prec_all : (prec.getD []).all isDigit
  prec_length : (prec.getD []).length < maxWformatLen

theorem withIntPrec_directiveText (flags width : List UInt8) (prec : Option (List UInt8))
    (conv : UInt8) :
    withIntPrec (directiveText flags width prec [] conv) =
      directiveText flags width prec printIntPrec conv := by
  rw [withIntPrec, directiveText, directiveText, List.length_append, List.length_singleton,
    Nat.add_sub_cancel, List.take_left, List.drop_left, List.append_nil, List.cons_append]

/-- What the end of the validation returns. -/
theorem finishFormat_ok {format : List UInt8} {start n width : Nat} {v : Validated}
    (h : finishFormat format start n width = .ok v) :
    v = ⟨n, percent :: slice format start n ++ [charAt format n], width⟩ ∧
      n - start ≤ maxFormatLen := by
  rw [finishFormat] at h
  split at h
  · cases h
  · cases h
    exact ⟨rfl, Nat.le_of_not_lt ‹_›⟩

/-- A directive that `validate_format` accepts. -/
structure Accepted (format : List UInt8) (start : Nat) (v : Validated) : Prop where
  start_le : start ≤ v.n
  le_length : v.n ≤ format.length
  short : v.n - start ≤ maxFormatLen
  fmt_length : v.fmt.length = v.n - start + 2
  text : ∃ flags width prec, IsDirective flags width prec ∧
    v.fmt = directiveText flags width prec [] (charAt format v.n) ∧
    v.width = decimal width + precision prec

/-- The validation stays inside the format. -/
theorem validateFormat_top {format : List UInt8} {start : Nat} (h : start ≤ format.length) :
    (validateFormat format start).1 ≤ format.length := by
  have hflags := (skipFlags_spec h).1
  have hwidth := (scanDigits_spec maxWformatLen [] hflags).1
  rw [validateFormat]
  split
  · rename_i n hscan
    rw [hscan] at hwidth
    exact Nat.le_trans (Nat.sub_le n 1) hwidth
  · rename_i n swidth hscan
    rw [hscan] at hwidth
    split
    · rename_i hdot
      have hlt : n < format.length := lt_length_of_charAt fun h0 => by
        rw [h0] at hdot
        exact absurd hdot (by decide)
      have hprec := (scanDigits_spec maxWformatLen [] hlt).1
      split
      · rename_i n' hscan'
        rw [hscan'] at hprec
        exact Nat.le_trans (Nat.sub_le n' 1) hprec
      · rename_i n' sprec hscan'
        rw [hscan'] at hprec
        exact hprec
    · exact hwidth

/-- A conversion put together of its parts. -/
theorem accepted_of_parts {format : List UInt8} {start n width : Nat} {v : Validated}
    {flags digits : List UInt8} (prec : Option (List UInt8)) (hstart : start ≤ n)
    (hn : n ≤ format.length) (hparts : IsDirective flags digits prec)
    (htext : slice format start n = flags ++ digits ++ precText prec)
    (hwidth : width = decimal digits + precision prec)
    (h : finishFormat format start n width = .ok v) : Accepted format start v := by
  obtain ⟨rfl, hshort⟩ := finishFormat_ok h
  refine ⟨hstart, hn, hshort, ?_, flags, digits, prec, hparts, ?_, hwidth⟩
  · rw [List.length_append, List.length_cons, length_slice hn]
    rfl
  · rw [directiveText, List.append_nil, htext]

/-- What passes the validation is a conversion. -/
theorem validateFormat_ok {format : List UInt8} {start top : Nat} {v : Validated}
    (hstart : start ≤ format.length) (h : validateFormat format start = (top, .ok v)) :
    Accepted format start v := by
  obtain ⟨hflags, hflagsAll⟩ := skipFlags_spec hstart
  obtain ⟨hwidth, hwidthAll, hwidthText⟩ :=
    scanDigits_spec maxWformatLen [] hflags
  have hle := le_skipFlags format start
  have hle' := le_scanDigits format maxWformatLen (skipFlags format start) []
  rw [validateFormat] at h
  split at h
  · cases h
  · rename_i n swidth hscan
    rw [hscan] at hwidth hwidthAll hwidthText hle'
    obtain ⟨hs, hlen⟩ : swidth = slice format (skipFlags format start) n ∧ _ :=
      hwidthText swidth rfl
    rw [List.length_nil, Nat.zero_add] at hlen
    have happ := slice_append format hle hle'
    -- with a precision, and without one
    split at h
    · rename_i hdot
      have hlt : n < format.length := lt_length_of_charAt fun h0 => by
        rw [h0] at hdot
        exact absurd hdot (by decide)
      obtain ⟨hprec, hprecAll, hprecText⟩ := scanDigits_spec maxWformatLen [] hlt
      have hle'' := le_scanDigits format maxWformatLen (n + 1) []
      split at h
      · cases h
      · rename_i n' sprec hscan'
        rw [hscan'] at hprec hprecAll hprecText hle''
        obtain ⟨hp, hlenp⟩ : sprec = slice format (n + 1) n' ∧ _ := hprecText sprec rfl
        rw [List.length_nil, Nat.zero_add] at hlenp
        have hlt' : n < n' := hle''
        refine accepted_of_parts (some sprec) (by dsimp only at hle'; omega) hprec
          ⟨hflagsAll, hs ▸ hwidthAll, hlen, ?_, hlenp⟩ ?_ rfl (Prod.ext_iff.1 h).2
        · rw [hp]
          exact hprecAll
        · have hdots : slice format n n' = precText (some sprec) := by
            rw [slice_cons hlt hlt', hdot, hp, precText]
          rw [← slice_append format (Nat.le_trans hle hle') hlt'.le, ← happ, hdots, hs]
    · refine accepted_of_parts none (Nat.le_trans hle hle') hwidth
        ⟨hflagsAll, hs ▸ hwidthAll, hlen, rfl, by decide⟩ ?_ rfl (Prod.ext_iff.1 h).2
      rw [precText, List.append_nil, hs]
      exact happ.symm

/-! ## The room for a directive -/

theorem foldl_decimal_lt {digits : List UInt8} (h : digits.all isDigit) (v : Nat) :
    digits.foldl (fun v c => v * 10 + (c.toNat - 48)) v < (v + 1) * 10 ^ digits.length := by
  induction digits generalizing v with
  | nil => simp
  | cons c digits ih =>
    rw [List.all_cons, Bool.and_eq_true] at h
    obtain ⟨hc, hall⟩ := h
    have hc9 : c.toNat ≤ 57 := by
      rw [isDigit, Bool.and_eq_true, decide_eq_true_eq, decide_eq_true_eq] at hc
      exact UInt8.le_iff_toNat_le.1 hc.2
    have hstep : v * 10 + (c.toNat - 48) + 1 ≤ (v + 1) * 10 := by omega
    calc (c :: digits).foldl (fun v c => v * 10 + (c.toNat - 48)) v
        < (v * 10 + (c.toNat - 48) + 1) * 10 ^ digits.length := ih hall _
      _ ≤ (v + 1) * 10 * 10 ^ digits.length := Nat.mul_le_mul_right _ hstep
      _ = (v + 1) * 10 ^ (c :: digits).length := by
        rw [List.length_cons, Nat.pow_succ, Nat.mul_assoc, Nat.mul_comm 10]

/-- A width has at most two digits. -/
theorem decimal_lt {digits : List UInt8} (h : digits.all isDigit)
    (hlen : digits.length < maxWformatLen) : decimal digits < 100 := by
  calc decimal digits < (0 + 1) * 10 ^ digits.length := foldl_decimal_lt h 0
    _ ≤ (0 + 1) * 10 ^ 2 :=
      Nat.mul_le_mul_left _ (Nat.pow_le_pow_right (by decide) (Nat.le_of_lt_succ hlen))
    _ = 100 := by decide

/-- How much the C standard lets a directive print: a string as it is or cut to a precision; an
integer of 64 bits in at most 22 digits, with two characters of a sign, a base or a leading zero; a
character; a finite float of 32 bits in at most 42 characters and the decimals of its precision, which
is 6 where it is not given; each padded to the width. -/
structure StandardBounds (printf : Printf) : Prop where
  string : ∀ {flags width prec}, IsDirective flags width prec → ∀ s,
    (printf (directiveText flags width prec [] 115) (.string s)).length ≤
      max (decimal width) s.length
  integer : ∀ {flags width prec}, IsDirective flags width prec → ∀ conv ∈ integerConversions, ∀ i,
    (printf (directiveText flags width prec printIntPrec conv) (.integer i)).length ≤
      max (decimal width) (max (precision prec) 22 + 2)
  char : ∀ {flags width prec}, IsDirective flags width prec → ∀ i,
    (printf (directiveText flags width prec [] 99) (.integer i)).length ≤ max (decimal width) 1
  float : ∀ {flags width prec}, IsDirective flags width prec → ∀ conv ∈ floatConversions,
    ∀ f : SQFloat, f.isFinite →
    (printf (directiveText flags width prec [] conv) (.float f)).length ≤
      max (decimal width) (max (precision prec) 6 + 42)

/-- A float among the parameters is a finite one. -/
def FiniteFloats (params : List SQObject) : Prop := ∀ f : SQFloat, .float f ∈ params → f.isFinite

theorem isFinite_getfloat {o : SQObject} {f : SQFloat} (h : getfloat o = some f)
    (ho : ∀ f : SQFloat, o = .float f → f.isFinite) : f.isFinite := by
  cases o with
  | integer i =>
    cases h
    exact isFinite_ofInt (by have := i.toInt_lt; have := i.le_toInt; omega)
  | float g =>
    cases h
    exact ho f rfl
  | _ => cases h

/-- What is printed for a directive fits in the room that is added for it, and only a string may be
too long for an `int`. -/
theorem length_printf_le {printf : Printf} (hp : StandardBounds printf) {cast : Cast}
    {format : List UInt8} {start : Nat} {v : Validated} (hv : Accepted format start v)
    {o : SQObject} (ho : ∀ f : SQFloat, o = .float f → f.isFinite) {c : Converted}
    (h : (convert cast v (charAt format v.n) o).2 = .ok c) :
    (printf c.fmt c.arg).length ≤ c.addlen ∧
      ((∃ s, c.arg = .string s) ∨ (printf c.fmt c.arg).length ≤ intMax) := by
  obtain ⟨flags, width, prec, hparts, hfmt, hwidth⟩ := hv.text
  have hw := decimal_lt hparts.width_all hparts.width_length
  have hq : precision prec < 100 := decimal_lt hparts.prec_all hparts.prec_length
  rcases convert_ok h with ⟨hch, h⟩ | ⟨hch, h⟩ | ⟨hch, h⟩ | ⟨hch, h⟩
  · obtain ⟨s, -, rfl⟩ := convertString_ok h
    have hle := hp.string hparts s
    rw [hch] at hfmt
    dsimp only
    rw [hfmt]
    exact ⟨by omega, .inl ⟨s, rfl⟩⟩
  · obtain ⟨i, -, rfl⟩ := convertInteger_ok h
    have hle := hp.integer hparts _ hch i
    dsimp only
    rw [hfmt, withIntPrec_directiveText, additionalFormatSpace, intMax]
    exact ⟨by omega, .inr (by omega)⟩
  · obtain ⟨i, -, rfl⟩ := convertInteger_ok h
    have hle := hp.char hparts i
    rw [hch] at hfmt
    dsimp only
    rw [hfmt, additionalFormatSpace, intMax]
    exact ⟨by omega, .inr (by omega)⟩
  · obtain ⟨f, hf, rfl⟩ := convertFloat_ok h
    have hle := hp.float hparts _ hch f (isFinite_getfloat hf ho)
    dsimp only
    rw [hfmt, additionalFormatSpace, intMax]
    exact ⟨by omega, .inr (by omega)⟩

/-! ## The accesses of a directive -/

/-- The index or the bound of an access is inside what is accessed. The format string may be read up
to its terminator. -/
def Access.Ok (format : List UInt8) : Access → Prop
  | .readFormat index => index ≤ format.length
  | .writeFmt index => index < fmtSize
  | .writeDest index size => 0 ≤ index ∧ index < size
  | .snprintf pos bound size => 0 ≤ pos ∧ pos + bound ≤ size

/-- The conversion reads inside the format. -/
theorem convert_accesses {cast : Cast} {format : List UInt8} {start : Nat} {v : Validated}
    (hv : Accepted format start v) (c : UInt8) (o : SQObject) :
    ∀ a ∈ (convert cast v c o).1, a.Ok format := by
  have hshort := hv.short
  have hlen := hv.fmt_length
  rw [maxFormatLen] at hshort
  have hwrite : Access.Ok format (.writeFmt (v.fmt.length + 2)) := by
    rw [Access.Ok, fmtSize, maxFormatLen]
    omega
  rw [convert]
  split
  · exact fun a ha => absurd ha List.not_mem_nil
  · split
    · intro a ha
      rw [List.mem_singleton.1 ha]
      exact hwrite
    · split
      · exact fun a ha => absurd ha List.not_mem_nil
      · split <;> exact fun a ha => absurd ha List.not_mem_nil

/-- A directive reads inside the format. -/
theorem directive_accesses {cast : Cast} {format : List UInt8} {params : List SQObject} {n : Nat}
    (hn : n ≤ format.length) : ∀ a ∈ (directive cast format params n).1, a.Ok format := by
  cases params with
  | nil => exact nofun
  | cons o params =>
    have htop := validateFormat_top hn
    rw [directive]
    split
    · rename_i top e he
      rw [he] at htop
      intro a ha
      rcases List.mem_cons.1 ha with rfl | ha
      · show (0 : Nat) < fmtSize
        decide
      · rw [List.mem_singleton.1 ha]
        exact htop
    · rename_i top v hv
      rw [hv] at htop
      have hacc := validateFormat_ok hn hv
      have hshort := hacc.short
      rw [maxFormatLen] at hshort
      intro a ha
      rcases List.mem_cons.1 ha with rfl | ha
      · exact htop
      · rcases List.mem_cons.1 ha with rfl | ha
        · show v.n - n + 2 < fmtSize
          rw [fmtSize, maxFormatLen]
          omega
        · exact convert_accesses hacc _ o a ha

/-- A directive that is printed: it ends in the format string, and its text fits in its room. -/
theorem directive_ok {printf : Printf} (hp : StandardBounds printf) {cast : Cast}
    {format : List UInt8} {params : List SQObject} (hf : FiniteFloats params) {n : Nat}
    (hn : n ≤ format.length) {c : Converted} (h : (directive cast format params n).2 = .ok c) :
    c.n ≤ format.length ∧ (printf c.fmt c.arg).length ≤ c.addlen ∧
      ((∃ s, c.arg = .string s) ∨ (printf c.fmt c.arg).length ≤ intMax) := by
  cases params with
  | nil => cases h
  | cons o params =>
    rw [directive] at h
    split at h
    · cases h
    · rename_i top v hv
      have hacc := validateFormat_ok hn hv
      refine ⟨?_, length_printf_le hp hacc (fun f ho => hf f (ho ▸ List.mem_cons_self)) h⟩
      -- a conversion character is not the terminator
      have hch : charAt format v.n ≠ 0 := by
        intro h0
        rw [h0] at h
        rcases convert_ok h with ⟨hch, -⟩ | ⟨hch, -⟩ | ⟨hch, -⟩ | ⟨hch, -⟩
        all_goals exact absurd hch (by decide)
      rw [convert_n h]
      exact lt_length_of_charAt hch

end Quirrel.Format
