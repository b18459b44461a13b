import Mathlib.Data.Nat.Digits.Defs
import Quirrel.Lexer.Number

/-!
# Number literals are exact

The texts that are numbers, and that `ReadNumber` reads just these: it ends in a token exactly if the
source text begins with a literal behind which no character continues it, and the token is the value
of the digits without their underscores (`readNumber_exact`). A decimal literal from `2 ^ 63` on and
a hexadecimal one from `2 ^ 64` on end in an error.
-/

set_option autoImplicit false

namespace Quirrel.Lexer

open Quirrel.Vm

/-! ## Literals -/

/-- The text without its underscores. -/
def cleaned (text : List UInt8) : List UInt8 := text.filter (· ≠ underscore)

/-- The value of a decimal digit. -/
def digitValue (c : UInt8) : Nat := c.toNat - 48

/-- The value of a hexadecimal digit. -/
def hexDigitValue (c : UInt8) : Nat :=
  if isDigit c then digitValue c else (toUpper c).toNat - 55

/-- The number that decimal digits denote, underscores among them. -/
def decimalValue (text : List UInt8) : Nat :=
  Nat.ofDigits 10 ((cleaned text).map digitValue).reverse

/-- The value of hexadecimal digits. -/
def hexValue (digits : List UInt8) : Nat :=
  Nat.ofDigits 16 (digits.map hexDigitValue).reverse

/-- Nothing but underscores. -/
def AllUnderscores (us : List UInt8) : Prop := ∀ u ∈ us, u = underscore

/-- Decimal digits and underscores, a digit first; a first zero is the only digit. -/
structure DecimalText (text : List UInt8) : Prop where
  first : isDigit (curChar text) = true
  chars : ∀ c ∈ text, isDigit c = true ∨ c = underscore
  noOctal : curChar text = zeroChar → cleaned text = [zeroChar]

/-- A zero, an x and hexadecimal digits with underscores between any two of them. -/
structure HexText (text digits : List UInt8) : Prop where
  parts : ∃ us x us' w, text = zeroChar :: us ++ x :: us' ++ w ∧ AllUnderscores us ∧
    (x = 120 ∨ x = 88) ∧ AllUnderscores us' ∧ isXDigit (curChar w) = true ∧
    (∀ c ∈ w, isXDigit c = true ∨ c = underscore) ∧ digits = cleaned w

/-- What can follow in a number that has a dot or an exponent already, and its type in the end. -/
inductive Continues : NumType → Bool → Bool → List UInt8 → NumType → Prop where
  | stop (t : NumType) (hasExp hasDot : Bool) : Continues t hasExp hasDot [] t
  | digit {t t' : NumType} {hasExp hasDot : Bool} {c : UInt8} {us w : List UInt8}
      (hc : isDigit c = true) (hus : AllUnderscores us) (hw : Continues t hasExp hasDot w t') :
      Continues t hasExp hasDot (c :: us ++ w) t'
  | dot {t t' : NumType} {us w : List UInt8} (hus : AllUnderscores us)
      (hw : Continues .float false true w t') : Continues t false false (dot :: us ++ w) t'
  | exponent {t t' : NumType} {hasDot : Bool} {e c : UInt8} {sign us w : List UInt8}
      (he : isExponent e = true) (hsign : sign = [] ∨ sign = [43] ∨ sign = [45])
      (hc : isDigit c = true) (hus : AllUnderscores us)
      (hw : Continues .scientific true hasDot w t') :
      Continues t false hasDot (e :: sign ++ c :: us ++ w) t'

/-- A number that is not hexadecimal. -/
structure NumberText (text : List UInt8) (t : NumType) : Prop where
  parts : ∃ c us w, text = c :: us ++ w ∧ isDigit c = true ∧ AllUnderscores us ∧
    Continues .int false false w t ∧ (c = zeroChar → isDigit (curChar w) = false)

/-- A number with a fraction or an exponent. -/
def FloatText (text : List UInt8) : Prop := ∃ t, t ≠ .int ∧ NumberText text t

/-- No character of a number follows. -/
structure Ends (rest : List UInt8) : Prop where
  alnum : isAlnum (curChar rest) = false
  dot : curChar rest ≠ dot
  underscore : curChar rest ≠ underscore

/-- No character of a hexadecimal number follows. -/
structure HexEnds (rest : List UInt8) : Prop where
  digit : isXDigit (curChar rest) = false
  underscore : curChar rest ≠ underscore

/-! ## Underscores -/

/-- Underscores are dropped part by part. -/
theorem cleaned_append (v w : List UInt8) : cleaned (v ++ w) = cleaned v ++ cleaned w :=
  List.filter_append v w

/-- Nothing stays of underscores. -/
theorem cleaned_underscores {us : List UInt8} (h : AllUnderscores us) : cleaned us = [] := by
  rw [cleaned, List.filter_eq_nil_iff]
  intro u hu
  simp [h u hu]

theorem cleaned_cons {c : UInt8} (h : c ≠ underscore) (w : List UInt8) :
    cleaned (c :: w) = c :: cleaned w := by
  simp [cleaned, h]

/-- Of a character and the underscores behind it the character stays. -/
theorem cleaned_cell {c : UInt8} {us : List UInt8} (hc : c ≠ underscore) (hus : AllUnderscores us)
    (w : List UInt8) : cleaned (c :: us ++ w) = c :: cleaned w := by
  rw [List.cons_append, cleaned_cons hc, cleaned_append, cleaned_underscores hus, List.nil_append]

theorem ne_underscore_of_isXDigit {c : UInt8} (h : isXDigit c = true) : c ≠ underscore := by
  rintro rfl
  exact absurd h (by decide)

/-- Every digit is a hexadecimal one. -/
theorem isXDigit_of_isDigit {c : UInt8} (h : isDigit c = true) : isXDigit c = true := by
  rw [isXDigit, h, Bool.true_or, Bool.true_or]

theorem curChar_dropWhile (s : List UInt8) :
    curChar (s.dropWhile (· = underscore)) ≠ underscore := by
  induction s with
  | nil => exact (by decide : (0 : UInt8) ≠ underscore)
  | cons c s ih =>
    by_cases hc : c = underscore
    · rw [List.dropWhile_cons_of_pos (by simp [hc])]
      exact ih
    · rw [List.dropWhile_cons_of_neg (by simp [hc])]
      exact hc

/-- The character with the underscores behind it. -/
theorem exists_numNext {s : List UInt8} (h : curChar s ≠ 0) :
    ∃ us, s = curChar s :: us ++ numNext s ∧ AllUnderscores us ∧
      curChar (numNext s) ≠ underscore := by
  cases s with
  | nil => exact absurd rfl h
  | cons c s =>
    refine ⟨s.takeWhile (· = underscore), ?_, fun u hu => ?_, curChar_dropWhile s⟩
    · rw [numNext, List.tail_cons, List.cons_append, List.takeWhile_append_dropWhile]
      rfl
    · simpa using List.mem_takeWhile_imp hu

/-- The lexer passes a character with the underscores behind it. -/
theorem numNext_eq {c : UInt8} {us r : List UInt8} (hus : AllUnderscores us)
    (hr : curChar r ≠ underscore) : numNext (c :: us ++ r) = r := by
  rw [numNext, List.cons_append, List.tail_cons]
  induction us with
  | nil =>
    cases r with
    | nil => rfl
    | cons d r => exact List.dropWhile_cons_of_neg (by simpa [curChar] using hr)
  | cons u us ih =>
    rw [List.cons_append, List.dropWhile_cons_of_pos (by simp [hus u List.mem_cons_self])]
    exact ih fun v hv => hus v (List.mem_cons_of_mem u hv)

/-! ## The loop over decimal characters -/

/-- A number only turns into a float, by a dot or an exponent. -/
theorem continues_type {t t' : NumType} {hasExp hasDot : Bool} {w : List UInt8}
    (h : Continues t hasExp hasDot w t') : t' = t ∨ t' = .float ∨ t' = .scientific := by
  induction h with
  | stop => exact Or.inl rfl
  | digit _ _ _ ih => exact ih
  | dot _ _ ih =>
    rcases ih with h | h
    · exact Or.inr (Or.inl h)
    · exact Or.inr h
  | exponent _ _ _ _ _ ih =>
    rcases ih with h | h
    · exact Or.inr (Or.inr h)
    · exact Or.inr h

/-- What is a float stays one. -/
theorem continues_ne_int {t t' : NumType} {hasExp hasDot : Bool} {w : List UInt8}
    (h : Continues t hasExp hasDot w t') (ht : t ≠ .int) : t' ≠ .int := by
  rcases continues_type h with rfl | rfl | rfl
  · exact ht
  · nofun
  · nofun

/-- A text that continues a number does not begin with an underscore. -/
theorem curChar_continues {t t' : NumType} {hasExp hasDot : Bool} {w rest : List UInt8}
    (h : Continues t hasExp hasDot w t') (hrest : Ends rest) : curChar (w ++ rest) ≠ underscore := by
  cases h with
  | stop => exact hrest.underscore
  | digit hc => exact ne_underscore_of_isXDigit (isXDigit_of_isDigit hc)
  | dot => exact (by decide : Lexer.dot ≠ underscore)
  | exponent he =>
    rename_i e _ _ _ _ _ _ _ _
    show e ≠ underscore
    rintro rfl
    exact absurd he (by decide)

/-- The letter of an exponent is neither a digit nor a dot. -/
theorem isExponent_props {e : UInt8} (h : isExponent e = true) :
    isAlnum e = true ∧ isDigit e = false ∧ e ≠ dot ∧ e ≠ underscore := by
  rw [isExponent, Bool.or_eq_true, decide_eq_true_eq, decide_eq_true_eq] at h
  rcases h with rfl | rfl <;> decide

/-- A digit is neither of the other characters of a number. -/
theorem isDigit_props {c : UInt8} (h : isDigit c = true) :
    isExponent c = false ∧ c ≠ dot ∧ c ≠ underscore ∧ c ≠ 43 ∧ c ≠ 45 := by
  refine ⟨?_, ?_, ?_, ?_, ?_⟩
  · cases he : isExponent c with
    | false => rfl
    | true => exact absurd h (by rw [(isExponent_props he).2.1]; nofun)
  all_goals
    rintro rfl
    exact absurd h (by decide)

/-- The sign of an exponent is read when digits follow. -/
theorem readSign_eq {L sign s : List UInt8} (hsign : sign = [] ∨ sign = [43] ∨ sign = [45])
    (hs : isDigit (curChar s) = true) : readSign L (sign ++ s) = (L ++ sign, s) := by
  have hdigit := isDigit_props hs
  rcases hsign with rfl | rfl | rfl
  · rw [List.nil_append, readSign, if_neg, List.append_nil]
    rintro (h | h)
    · exact hdigit.2.2.2.1 h
    · exact hdigit.2.2.2.2 h
  · rfl
  · rfl

/-- The loop reads every text that continues the number. -/
theorem readDecimal_of_continues {t t' : NumType} {hasExp hasDot : Bool} {w rest : List UInt8}
    (h : Continues t hasExp hasDot w t') (hrest : Ends rest) (L : List UInt8) :
    readDecimal t hasExp hasDot L (w ++ rest) = .ok (t', L ++ cleaned w, rest) := by
  induction h generalizing L with
  | stop t hasExp hasDot =>
    rw [List.nil_append, readDecimal, dif_neg hrest.dot, dif_neg (by rw [hrest.alnum]; nofun)]
    simp [cleaned]
  | @digit t t' hasExp hasDot c us w hc hus hw ih =>
    obtain ⟨s, hs⟩ : ∃ s, s = c :: us ++ w ++ rest := ⟨_, rfl⟩
    have hcur : curChar s = c := by rw [hs]; rfl
    have hnext : numNext s = w ++ rest := by
      rw [hs, List.append_assoc, numNext_eq hus (curChar_continues hw hrest)]
    have hprops := isDigit_props hc
    rw [← hs, readDecimal, dif_neg (by rw [hcur]; exact hprops.2.1),
      dif_pos (by rw [hcur]; exact isAlnum_of_isDigit hc), if_neg (by rw [hcur, hprops.1]; nofun),
      if_pos (by rw [hcur]; exact hc), hcur, hnext, ih, cleaned_cell hprops.2.2.1 hus,
      List.append_assoc, List.singleton_append]
  | @dot t t' us w hus hw ih =>
    obtain ⟨s, hs⟩ : ∃ s, s = Lexer.dot :: us ++ w ++ rest := ⟨_, rfl⟩
    have hcur : curChar s = Lexer.dot := by rw [hs]; rfl
    have hnext : numNext s = w ++ rest := by
      rw [hs, List.append_assoc, numNext_eq hus (curChar_continues hw hrest)]
    rw [← hs, readDecimal, dif_pos hcur, if_neg (by decide), hnext, ih,
      cleaned_cell (by decide) hus, List.append_assoc, List.singleton_append]
  | @exponent t t' hasDot e c sign us w he hsign hc hus hw ih =>
    obtain ⟨s, hs⟩ : ∃ s, s = e :: sign ++ c :: us ++ w ++ rest := ⟨_, rfl⟩
    have hcur : curChar s = e := by rw [hs]; rfl
    have htail : s.tail = sign ++ (c :: us ++ (w ++ rest)) := by
      rw [hs]
      simp
    have hnext : numNext (c :: us ++ (w ++ rest)) = w ++ rest :=
      numNext_eq hus (curChar_continues hw hrest)
    have hsigned : readSign (L ++ [e]) s.tail = (L ++ [e] ++ sign, c :: us ++ (w ++ rest)) := by
      rw [htail]
      exact readSign_eq hsign hc
    have hprops := isExponent_props he
    have hclean : cleaned (e :: sign ++ c :: us ++ w) = e :: sign ++ c :: cleaned w := by
      have hsignclean : cleaned sign = sign := by rcases hsign with rfl | rfl | rfl <;> rfl
      rw [List.cons_append, List.cons_append, cleaned_cons hprops.2.2.2, List.append_assoc,
        cleaned_append, hsignclean, cleaned_cell (isDigit_props hc).2.2.1 hus]
      rfl
    rw [← hs, readDecimal, dif_neg (by rw [hcur]; exact hprops.2.2.1),
      dif_pos (by rw [hcur]; exact hprops.1), if_pos (by rw [hcur]; exact he), if_neg (by decide)]
    simp only [hcur, hsigned]
    rw [dif_pos (show isDigit (curChar (c :: us ++ (w ++ rest))) = true from hc), hnext, ih,
      hclean]
    simp [curChar]

/-- What is read of a sign is a sign or nothing. -/
theorem readSign_cases (L s : List UInt8) :
    ∃ sign, (sign = [] ∨ sign = [43] ∨ sign = [45]) ∧ s = sign ++ (readSign L s).2 := by
  rw [readSign]
  by_cases h : curChar s = 43 ∨ curChar s = 45
  · rw [if_pos h]
    cases s with
    | nil => exact absurd h (by decide)
    | cons c s =>
      rcases h with h | h
      · exact ⟨[43], Or.inr (Or.inl rfl), congrArg (· :: s) h⟩
      · exact ⟨[45], Or.inr (Or.inr rfl), congrArg (· :: s) h⟩
  · rw [if_neg h]
    exact ⟨[], Or.inl rfl, rfl⟩

/-- What the loop reads continues the number. -/
theorem continues_of_readDecimal {t t' : NumType} {hasExp hasDot : Bool} {L L' s rest : List UInt8}
    (hs : curChar s ≠ underscore) (h : readDecimal t hasExp hasDot L s = .ok (t', L', rest)) :
    ∃ w, s = w ++ rest ∧ Continues t hasExp hasDot w t' ∧ Ends rest := by
  induction hn : s.length using Nat.strongRecOn generalizing t hasExp hasDot L s with
  | _ n ih =>
    rw [readDecimal] at h
    -- the branches of the loop: a dot, an exponent, a digit, and the end of the number
    by_cases hdot : curChar s = dot
    · rw [dif_pos hdot] at h
      have hne : curChar s ≠ 0 := by rw [hdot]; decide
      obtain ⟨us, hsplit, hus, hnext⟩ := exists_numNext hne
      cases hasDot with
      | true => cases h
      | false =>
        cases hasExp with
        | true => cases h
        | false =>
          obtain ⟨w, hw, hcont, hends⟩ := ih _ (hn ▸ length_numNext_lt hne) hnext h rfl
          refine ⟨dot :: us ++ w, ?_, .dot hus hcont, hends⟩
          rw [List.append_assoc, ← hw, ← hdot]
          exact hsplit
    · rw [dif_neg hdot] at h
      by_cases halnum : isAlnum (curChar s) = true
      · rw [dif_pos halnum] at h
        have hne := ne_zero_of_isAlnum halnum
        by_cases hexp : isExponent (curChar s) = true
        · rw [if_pos hexp] at h
          cases hasExp with
          | true => cases h
          | false =>
            rw [if_neg Bool.false_ne_true] at h
            obtain ⟨sign, hsign, htail⟩ := readSign_cases (L ++ [curChar s]) s.tail
            have hlen := length_readSign_le (L ++ [curChar s]) s.tail
            generalize readSign (L ++ [curChar s]) s.tail = signed at h htail hlen
            by_cases hdigit : isDigit (curChar signed.2) = true
            · simp only [dif_pos hdigit] at h
              have hne' := ne_zero_of_isAlnum (isAlnum_of_isDigit hdigit)
              obtain ⟨us, hsplit, hus, hnext⟩ := exists_numNext hne'
              have hshort := length_numNext_lt hne'
              have htaillen := (List.tail_suffix s).length_le
              obtain ⟨w, hw, hcont, hends⟩ := ih _ (by omega) hnext h rfl
              refine ⟨curChar s :: sign ++ curChar signed.2 :: us ++ w, ?_,
                .exponent hexp hsign hdigit hus hcont, hends⟩
              -- the characters of the exponent make up the text that was read
              have hcell : s = curChar s :: s.tail := by
                cases s with
                | nil => exact absurd rfl hne
                | cons c s => rfl
              have hrest : signed.2 = curChar signed.2 :: us ++ (w ++ rest) := by
                rw [← hw]
                exact hsplit
              rw [hrest] at htail
              rw [htail] at hcell
              simpa using hcell
            · simp only [dif_neg hdigit] at h
              cases h
        · rw [if_neg hexp] at h
          by_cases hdigit : isDigit (curChar s) = true
          · rw [if_pos hdigit] at h
            obtain ⟨us, hsplit, hus, hnext⟩ := exists_numNext hne
            obtain ⟨w, hw, hcont, hends⟩ := ih _ (hn ▸ length_numNext_lt hne) hnext h rfl
            refine ⟨curChar s :: us ++ w, ?_, .digit hdigit hus hcont, hends⟩
            rw [List.append_assoc, ← hw]
            exact hsplit
          · rw [if_neg hdigit] at h
            cases h
      · rw [dif_neg halnum] at h
        cases h
        exact ⟨[], rfl, .stop _ _ _, Bool.eq_false_of_not_eq_true halnum, hdot, hs⟩

/-! ## Decimal integers -/

theorem AllUnderscores.digits {us : List UInt8} (h : AllUnderscores us) :
    ∀ c ∈ us, isDigit c = true ∨ c = underscore := fun c hc => Or.inr (h c hc)

/-- A number that stays an integer has digits and underscores only. -/
theorem digits_of_continues {t t' : NumType} {hasExp hasDot : Bool} {w : List UInt8}
    (h : Continues t hasExp hasDot w t') (ht : t' = .int) :
    (w ≠ [] → isDigit (curChar w) = true) ∧ ∀ c ∈ w, isDigit c = true ∨ c = underscore := by
  induction h with
  | stop => exact ⟨fun hne => absurd rfl hne, nofun⟩
  | digit hc hus _ ih =>
    refine ⟨fun _ => hc, fun d hd => ?_⟩
    rw [List.cons_append, List.mem_cons, List.mem_append] at hd
    rcases hd with rfl | hd | hd
    · exact Or.inl hc
    · exact hus.digits d hd
    · exact (ih ht).2 d hd
  | dot _ hw _ => exact absurd ht (continues_ne_int hw nofun)
  | exponent _ _ _ _ hw _ => exact absurd ht (continues_ne_int hw nofun)

/-- Digits and underscores leave the type as it is. -/
theorem continues_of_digits {t : NumType} {w : List UInt8} {hasExp hasDot : Bool}
    (hfirst : w ≠ [] → isDigit (curChar w) = true)
    (hall : ∀ c ∈ w, isDigit c = true ∨ c = underscore) : Continues t hasExp hasDot w t := by
  induction hn : w.length using Nat.strongRecOn generalizing w with
  | _ n ih =>
    by_cases hw : w = []
    · rw [hw]
      exact .stop _ _ _
    · have hdigit := hfirst hw
      have hne := ne_zero_of_isAlnum (isAlnum_of_isDigit hdigit)
      obtain ⟨us, hsplit, hus, hnext⟩ := exists_numNext hne
      have hsub : ∀ c ∈ numNext w, isDigit c = true ∨ c = underscore := by
        intro c hc
        apply hall
        rw [hsplit]
        exact List.mem_append_right _ hc
      have hcont := ih _ (hn ▸ length_numNext_lt hne) (w := numNext w) ?_ hsub rfl
      · rw [hsplit]
        exact .digit hdigit hus hcont
      · intro hnenil
        cases hnn : numNext w with
        | nil => exact absurd hnn hnenil
        | cons c r =>
          rw [hnn] at hsub hnext
          exact (hsub c List.mem_cons_self).resolve_right hnext

/-- The decimal integers are the numbers that stay integers. -/
theorem decimalText_iff (text : List UInt8) : DecimalText text ↔ NumberText text .int := by
  constructor
  · intro h
    have hne := ne_zero_of_isAlnum (isAlnum_of_isDigit h.first)
    obtain ⟨us, hsplit, hus, hnext⟩ := exists_numNext hne
    have hsub : ∀ c ∈ numNext text, isDigit c = true ∨ c = underscore := by
      intro c hc
      apply h.chars
      rw [hsplit]
      exact List.mem_append_right _ hc
    have hhead : numNext text ≠ [] → isDigit (curChar (numNext text)) = true := by
      intro hnenil
      cases hnn : numNext text with
      | nil => exact absurd hnn hnenil
      | cons c r =>
        rw [hnn] at hsub hnext
        exact (hsub c List.mem_cons_self).resolve_right hnext
    refine ⟨⟨curChar text, us, numNext text, hsplit, h.first, hus, continues_of_digits hhead hsub,
      fun hzero => ?_⟩⟩
    -- a digit behind the zero would be a second character of the cleaned text
    have hclean := h.noOctal hzero
    rw [hsplit, cleaned_cell (isDigit_props h.first).2.2.1 hus, hzero, List.cons.injEq] at hclean
    cases hnn : numNext text with
    | nil => decide
    | cons c r =>
      have hc : c ≠ underscore := by
        rw [hnn] at hnext
        exact hnext
      rw [hnn, cleaned_cons hc] at hclean
      cases hclean.2
  · rintro ⟨c, us, w, rfl, hc, hus, hcont, hoctal⟩
    obtain ⟨hfirst, hall⟩ := digits_of_continues hcont rfl
    refine ⟨hc, fun d hd => ?_, fun hzero => ?_⟩
    · rw [List.cons_append, List.mem_cons, List.mem_append] at hd
      rcases hd with rfl | hd | hd
      · exact Or.inl hc
      · exact hus.digits d hd
      · exact hall d hd
    · have hc0 : c = zeroChar := hzero
      have hw : w = [] := by
        by_contra hne
        have hnot := hoctal hc0
        rw [hfirst hne] at hnot
        cases hnot
      rw [hw, cleaned_cell (isDigit_props hc).2.2.1 hus, hc0]
      rfl

/-! ## Hexadecimal digits -/

/-- A character of the digits of a hexadecimal number. -/
def isHexChar (c : UInt8) : Bool := isXDigit c || c = underscore

/-- The loop of a hexadecimal number passes digits and underscores. -/
theorem isHexChar_iff {c : UInt8} : isHexChar c = true ↔ isXDigit c = true ∨ c = underscore := by
  rw [isHexChar, Bool.or_eq_true, decide_eq_true_eq]

/-- The digits of a text that ends behind them. -/
theorem takeWhile_hexChars {w rest : List UInt8} (hw : ∀ c ∈ w, isHexChar c = true)
    (hrest : HexEnds rest) :
    (w ++ rest).takeWhile isHexChar = w ∧ (w ++ rest).dropWhile isHexChar = rest := by
  have hstop : rest.takeWhile isHexChar = [] ∧ rest.dropWhile isHexChar = rest := by
    cases rest with
    | nil => exact ⟨rfl, rfl⟩
    | cons c r =>
      have hc : ¬ isHexChar c = true := by
        rw [isHexChar_iff]
        rintro (h | h)
        · have := hrest.digit
          rw [show curChar (c :: r) = c from rfl, h] at this
          cases this
        · exact hrest.underscore h
      exact ⟨List.takeWhile_cons_of_neg hc, List.dropWhile_cons_of_neg hc⟩
  rw [List.takeWhile_append_of_pos hw, List.dropWhile_append_of_pos hw, hstop.1, hstop.2,
    List.append_nil]
  exact ⟨rfl, rfl⟩

/-- The loop over hexadecimal digits. -/
theorem readHexDigits_spec {s : List UInt8} (hs : curChar s ≠ underscore) (L : List UInt8) :
    ∃ w, s = w ++ (readHexDigits L s).2 ∧ (w ≠ [] → isXDigit (curChar w) = true) ∧
      (∀ c ∈ w, isHexChar c = true) ∧ (readHexDigits L s).1 = L ++ cleaned w ∧
      HexEnds (readHexDigits L s).2 := by
  induction hn : s.length using Nat.strongRecOn generalizing s L with
  | _ n ih =>
    by_cases hdigit : isXDigit (curChar s) = true
    · have hread : readHexDigits L s = readHexDigits (L ++ [curChar s]) (numNext s) := by
        rw [readHexDigits, dif_pos hdigit]
      have hne := ne_zero_of_isXDigit hdigit
      obtain ⟨us, hsplit, hus, hnext⟩ := exists_numNext hne
      obtain ⟨w, hw, -, hall, hclean, hends⟩ :=
        ih _ (hn ▸ length_numNext_lt hne) hnext (L ++ [curChar s]) rfl
      rw [hread]
      refine ⟨curChar s :: us ++ w, ?_, fun _ => hdigit, fun c hc => ?_, ?_, hends⟩
      · rw [List.append_assoc, ← hw]
        exact hsplit
      · rw [List.cons_append, List.mem_cons, List.mem_append] at hc
        rcases hc with rfl | hc | hc
        · exact isHexChar_iff.2 (Or.inl hdigit)
        · exact isHexChar_iff.2 (Or.inr (hus c hc))
        · exact hall c hc
      · rw [hclean, cleaned_cell (ne_underscore_of_isXDigit hdigit) hus, List.append_assoc]
        rfl
    · have hread : readHexDigits L s = (L, s) := by rw [readHexDigits, dif_neg hdigit]
      rw [hread]
      exact ⟨[], rfl, fun h => absurd rfl h, nofun, (List.append_nil L).symm,
        Bool.eq_false_of_not_eq_true hdigit, hs⟩

theorem curChar_append {w : List UInt8} (h : curChar w ≠ 0) (rest : List UInt8) :
    curChar (w ++ rest) = curChar w := by
  cases w with
  | nil => exact absurd rfl h
  | cons c w => rfl

/-- The loop of a hexadecimal number takes the whole text. -/
theorem readHexDigits_eq {w rest : List UInt8} (hfirst : isXDigit (curChar w) = true)
    (hw : ∀ c ∈ w, isHexChar c = true) (hrest : HexEnds rest) (L : List UInt8) :
    readHexDigits L (w ++ rest) = (L ++ cleaned w, rest) := by
  have hs : curChar (w ++ rest) ≠ underscore := by
    rw [curChar_append (ne_zero_of_isXDigit hfirst)]
    exact ne_underscore_of_isXDigit hfirst
  obtain ⟨w', hsplit, -, hall, hclean, hends⟩ := readHexDigits_spec hs L
  have hsame := takeWhile_hexChars hw hrest
  rw [hsplit] at hsame
  obtain ⟨hw', hrest'⟩ := takeWhile_hexChars hall hends
  rw [hw'] at hsame
  rw [hrest'] at hsame
  rw [Prod.ext_iff]
  exact ⟨by rw [hclean, hsame.1], hsame.2⟩

/-! ## Scanning -/

theorem toUpper_eq_X {c : UInt8} : toUpper c = 88 ↔ c = 120 ∨ c = 88 := by
  rw [toUpper]
  by_cases h : 97 ≤ c ∧ c ≤ 122
  · rw [if_pos h]
    constructor
    · intro hc
      have hback : c = 88 + 32 := by rw [← hc, UInt8.sub_add_cancel]
      exact Or.inl hback
    · rintro (rfl | rfl)
      · rfl
      · exact absurd h (by decide)
  · rw [if_neg h]
    constructor
    · exact Or.inr
    · rintro (rfl | rfl)
      · exact absurd (by decide) h
      · rfl

/-- Behind a leading zero there is no `x`. -/
theorem curChar_of_continues {t t' : NumType} {hasExp hasDot : Bool} {w rest : List UInt8}
    (h : Continues t hasExp hasDot w t') (hrest : Ends rest) :
    curChar (w ++ rest) ≠ 120 ∧ curChar (w ++ rest) ≠ 88 := by
  cases h with
  | stop =>
    constructor
    all_goals
      intro heq
      have halnum := hrest.alnum
      rw [List.nil_append] at heq
      rw [heq] at halnum
      cases halnum
  | @digit t t' hasExp hasDot c us w hc =>
    constructor
    all_goals
      intro heq
      have hx : c = _ := heq
      rw [hx] at hc
      cases hc
  | dot => exact ⟨(by decide : Lexer.dot ≠ 120), (by decide : Lexer.dot ≠ 88)⟩
  | @exponent t t' hasDot e c sign us w he =>
    constructor
    all_goals
      intro heq
      have hx : e = _ := heq
      rw [hx] at he
      exact absurd he (by decide)

/-- The scan of a number that is not hexadecimal. -/
theorem scanNumber_of_numberText {text rest : List UInt8} {t : NumType} (h : NumberText text t)
    (hrest : Ends rest) : scanNumber (text ++ rest) = .ok (t, cleaned text, rest) := by
  obtain ⟨c, us, w, rfl, hc, hus, hcont, hoctal⟩ := h
  obtain ⟨s, hs⟩ : ∃ s, s = c :: us ++ w ++ rest := ⟨_, rfl⟩
  have hcur : curChar s = c := by rw [hs]; rfl
  have hnext : numNext s = w ++ rest := by
    rw [hs, List.append_assoc, numNext_eq hus (curChar_continues hcont hrest)]
  have hnoctal : ¬ (c = zeroChar ∧ isDigit (curChar (w ++ rest)) = true) := by
    rintro ⟨hzero, hdigit⟩
    cases w with
    | nil =>
      have hyes : isDigit (curChar rest) = true := hdigit
      have halnum := hrest.alnum
      rw [isAlnum_of_isDigit hyes] at halnum
      cases halnum
    | cons d w =>
      have hnot : isDigit d = false := hoctal hzero
      have hyes : isDigit d = true := hdigit
      rw [hnot] at hyes
      cases hyes
  have hnhex : ¬ (c = zeroChar ∧ toUpper (curChar (w ++ rest)) = 88) := by
    rintro ⟨-, hx⟩
    have hnot := curChar_of_continues hcont hrest
    rcases toUpper_eq_X.1 hx with hx | hx
    · exact hnot.1 hx
    · exact hnot.2 hx
  rw [← hs, scanNumber]
  dsimp only
  rw [hcur, hnext, if_neg hnoctal, if_neg hnhex, readDecimal_of_continues hcont hrest,
    cleaned_cell (isDigit_props hc).2.2.1 hus]
  rfl

/-- The scan of a hexadecimal number. -/
theorem scanNumber_of_hexText {text digits rest : List UInt8} (h : HexText text digits)
    (hrest : HexEnds rest) :
    scanNumber (text ++ rest) =
      if 16 < digits.length then .error .hexTooManyDigits else .ok (.hex, digits, rest) := by
  obtain ⟨us, x, us', w, rfl, hus, hx, hus', hfirst, hall, rfl⟩ := h
  obtain ⟨s, hs⟩ : ∃ s, s = zeroChar :: us ++ x :: us' ++ w ++ rest := ⟨_, rfl⟩
  have hcur : curChar s = zeroChar := by rw [hs]; rfl
  have hxne : curChar (x :: us' ++ (w ++ rest)) ≠ underscore := by
    show x ≠ underscore
    rcases hx with rfl | rfl <;> decide
  have hnext : numNext s = x :: us' ++ (w ++ rest) := by
    have hassoc : zeroChar :: us ++ x :: us' ++ w ++ rest =
        zeroChar :: us ++ (x :: us' ++ (w ++ rest)) := by simp
    rw [hs, hassoc, numNext_eq hus hxne]
  have hnext' : numNext (x :: us' ++ (w ++ rest)) = w ++ rest := by
    apply numNext_eq hus'
    rw [curChar_append (ne_zero_of_isXDigit hfirst)]
    exact ne_underscore_of_isXDigit hfirst
  have hnoctal : ¬ (zeroChar = zeroChar ∧ isDigit (curChar (x :: us' ++ (w ++ rest))) = true) := by
    rintro ⟨-, hdigit⟩
    have hx' : isDigit x = true := hdigit
    rcases hx with rfl | rfl <;> exact absurd hx' (by decide)
  have hhex : zeroChar = zeroChar ∧ toUpper (curChar (x :: us' ++ (w ++ rest))) = 88 :=
    ⟨rfl, toUpper_eq_X.2 hx⟩
  have hsome : (cleaned w).length ≠ 0 := by
    cases w with
    | nil => exact absurd hfirst (by decide)
    | cons d w =>
      have hd : isXDigit d = true := hfirst
      rw [cleaned_cons (ne_underscore_of_isXDigit hd)]
      exact Nat.succ_ne_zero _
  rw [← hs, scanNumber]
  dsimp only
  rw [hcur, hnext, if_neg hnoctal, if_pos hhex, hnext',
    readHexDigits_eq hfirst (fun c hc => isHexChar_iff.2 (hall c hc)) hrest, List.nil_append,
    if_neg hsome]

/-- What the scan reads is a number. -/
theorem text_of_scanNumber {src L rest : List UInt8} {t : NumType}
    (hfirst : isDigit (curChar src) = true) (h : scanNumber src = .ok (t, L, rest)) :
    ∃ text, src = text ++ rest ∧
      (t ≠ .hex ∧ NumberText text t ∧ L = cleaned text ∧ Ends rest ∨
        t = .hex ∧ HexText text L ∧ HexEnds rest ∧ L.length ≤ 16) := by
  have hne := ne_zero_of_isAlnum (isAlnum_of_isDigit hfirst)
  obtain ⟨us, hsplit, hus, hnext⟩ := exists_numNext hne
  rw [scanNumber] at h
  dsimp only at h
  by_cases hoctal : curChar src = zeroChar ∧ isDigit (curChar (numNext src)) = true
  · rw [if_pos hoctal] at h
    cases h
  rw [if_neg hoctal] at h
  by_cases hhex : curChar src = zeroChar ∧ toUpper (curChar (numNext src)) = 88
  · rw [if_pos hhex] at h
    have hx := toUpper_eq_X.1 hhex.2
    have hne' : curChar (numNext src) ≠ 0 := by
      rcases hx with hx | hx <;> rw [hx] <;> decide
    obtain ⟨us', hsplit', hus', hnext'⟩ := exists_numNext hne'
    obtain ⟨w, hw, hwfirst, hall, hclean, hends⟩ := readHexDigits_spec hnext' []
    by_cases hmany : 16 < (readHexDigits [] (numNext (numNext src))).1.length
    · rw [if_pos hmany] at h
      cases h
    rw [if_neg hmany] at h
    by_cases hnone : (readHexDigits [] (numNext (numNext src))).1.length = 0
    · rw [if_pos hnone] at h
      cases h
    rw [if_neg hnone] at h
    cases h
    rw [List.nil_append] at hclean
    have hwne : w ≠ [] := by
      rintro rfl
      rw [hclean] at hnone
      exact hnone rfl
    refine ⟨zeroChar :: us ++ curChar (numNext src) :: us' ++ w, ?_, Or.inr ⟨rfl, ⟨us, _, us', w, rfl,
      hus, hx, hus', hwfirst hwne, fun c hc => isHexChar_iff.1 (hall c hc), hclean⟩, hends,
      Nat.le_of_not_lt hmany⟩⟩
    rw [hw] at hsplit'
    rw [hsplit', hhex.1] at hsplit
    simpa using hsplit
  · rw [if_neg hhex] at h
    obtain ⟨w, hw, hcont, hends⟩ := continues_of_readDecimal hnext h
    have hread := readDecimal_of_continues hcont hends [curChar src]
    rw [← hw, h] at hread
    have hnumber : NumberText (curChar src :: us ++ w) t := by
      refine ⟨_, us, w, rfl, hfirst, hus, hcont, fun hzero => ?_⟩
      cases hd : isDigit (curChar w) with
      | false => rfl
      | true =>
        refine absurd ⟨hzero, ?_⟩ hoctal
        rw [hw, curChar_append (ne_zero_of_isAlnum (isAlnum_of_isDigit hd))]
        exact hd
    have ht : t ≠ .hex := by
      rcases continues_type hcont with rfl | rfl | rfl <;> nofun
    refine ⟨curChar src :: us ++ w, ?_, Or.inl ⟨ht, hnumber, ?_, hends⟩⟩
    · rw [List.append_assoc, ← hw]
      exact hsplit
    · rw [cleaned_cell (isDigit_props hfirst).2.2.1 hus]
      cases hread
      rfl

/-! ## Values -/

/-- The value of a decimal number, digit after digit. -/
theorem decimalValue_eq (text : List UInt8) :
    decimalValue text = (cleaned text).foldl (fun v c => v * 10 + digitValue c) 0 := by
  rw [decimalValue, Nat.ofDigits_eq_foldr, List.foldr_reverse, List.foldl_map]
  simp [Nat.mul_comm, Nat.add_comm]

/-- The value of a hexadecimal number, digit after digit. -/
theorem hexValue_eq (digits : List UInt8) :
    hexValue digits = digits.foldl (fun v c => v * 16 + hexDigitValue c) 0 := by
  rw [hexValue, Nat.ofDigits_eq_foldr, List.foldr_reverse, List.foldl_map]
  simp [Nat.mul_comm, Nat.add_comm]

/-- The value never falls as digits are added. -/
theorem le_foldl {b : Nat} (hb : 1 ≤ b) (value : UInt8 → Nat) (ds : List UInt8) (v : Nat) :
    v ≤ ds.foldl (fun v c => v * b + value c) v := by
  induction ds generalizing v with
  | nil => exact Nat.le_refl v
  | cons c ds ih =>
    have hstep : v ≤ v * b + value c := Nat.le_add_right_of_le (Nat.le_mul_of_pos_right v hb)
    exact Nat.le_trans hstep (ih (v * b + value c))

theorem isDigit_iff {c : UInt8} : isDigit c = true ↔ 48 ≤ c.toNat ∧ c.toNat ≤ 57 := by
  rw [isDigit, Bool.and_eq_true, decide_eq_true_eq, decide_eq_true_eq, UInt8.le_iff_toNat_le,
    UInt8.le_iff_toNat_le]
  rfl

theorem toUpper_bounds {c : UInt8} (h : isXDigit c = true) (hd : ¬ isDigit c = true) :
    65 ≤ (toUpper c).toNat ∧ (toUpper c).toNat ≤ 70 := by
  rw [isXDigit, Bool.or_eq_true, Bool.or_eq_true] at h
  rcases h with (h | h) | h
  · exact absurd h hd
  · rw [Bool.and_eq_true, decide_eq_true_eq, decide_eq_true_eq] at h
    have hle : c ≤ 122 := UInt8.le_trans h.2 (by decide)
    have hlo := UInt8.le_iff_toNat_le.1 h.1
    have hhi := UInt8.le_iff_toNat_le.1 h.2
    have hn97 : (97 : UInt8).toNat = 97 := rfl
    have hn102 : (102 : UInt8).toNat = 102 := rfl
    have h32 : (32 : UInt8) ≤ c := UInt8.le_trans (by decide) h.1
    have hn32 : (32 : UInt8).toNat = 32 := rfl
    rw [toUpper, if_pos ⟨h.1, hle⟩, UInt8.toNat_sub_of_le _ _ h32]
    omega
  · rw [Bool.and_eq_true, decide_eq_true_eq, decide_eq_true_eq] at h
    have hlo := UInt8.le_iff_toNat_le.1 h.1
    have hhi := UInt8.le_iff_toNat_le.1 h.2
    have hn65 : (65 : UInt8).toNat = 65 := rfl
    have hn70 : (70 : UInt8).toNat = 70 := rfl
    have hnot : ¬ (97 ≤ c ∧ c ≤ 122) := by
      rintro ⟨h97, -⟩
      exact absurd (UInt8.le_trans h97 h.2) (by decide)
    rw [toUpper, if_neg hnot]
    omega

theorem toNat_digit {c : UInt8} (hc : isDigit c = true) :
    (BitVec.ofNat 64 c.toNat - 48#64).toNat = digitValue c := by
  have hc' := isDigit_iff.1 hc
  rw [digitValue, BitVec.toNat_sub, BitVec.toNat_ofNat, BitVec.toNat_ofNat]
  omega

/-- The comparison with the threshold says exactly that the next value needs more than 64 bits. -/
theorem overflow_iff (x digit : BitVec 64) (hdigit : digit.toNat ≤ 9) :
    (intOverflowThreshold < x ∨ x = intOverflowThreshold ∧ intOverflowDigit < digit) ↔
      2 ^ 64 ≤ x.toNat * 10 + digit.toNat := by
  have hthreshold : intOverflowThreshold.toNat = 1844674407370955161 := by decide
  have hlast : intOverflowDigit.toNat = 5 := by decide
  rw [BitVec.lt_def, BitVec.lt_def, ← BitVec.toNat_inj, hthreshold, hlast]
  omega

/-- No step of the accumulation overflows. -/
theorem lexInteger_eq {ds : List UInt8} (hds : ∀ c ∈ ds, isDigit c = true) (x : BitVec 64) :
    lexInteger x ds =
      if ds.foldl (fun v c => v * 10 + digitValue c) x.toNat < 2 ^ 63 then
        some (.ofNat 64 (ds.foldl (fun v c => v * 10 + digitValue c) x.toNat))
      else none := by
  induction ds generalizing x with
  | nil =>
    have hmax : (~~~0#64 >>> 1).toNat = 2 ^ 63 - 1 := by decide
    have hle : x ≤ ~~~0#64 >>> 1 ↔ x.toNat < 2 ^ 63 := by
      rw [BitVec.le_def, hmax]
      omega
    rw [lexInteger, List.foldl_nil, BitVec.ofNat_toNat, BitVec.setWidth_eq]
    by_cases h : x.toNat < 2 ^ 63
    · rw [if_pos h, if_pos (hle.2 h)]
    · rw [if_neg h, if_neg fun hx => h (hle.1 hx)]
  | cons c ds ih =>
    have hc := hds c List.mem_cons_self
    have hdigit := toNat_digit hc
    have hsmall : (BitVec.ofNat 64 c.toNat - 48#64).toNat ≤ 9 := by
      rw [hdigit, digitValue]
      have := isDigit_iff.1 hc
      omega
    have hover := overflow_iff x _ hsmall
    rw [hdigit] at hover
    rw [lexInteger, List.foldl_cons]
    by_cases h : 2 ^ 64 ≤ x.toNat * 10 + digitValue c
    · have hmore := le_foldl (by decide : 1 ≤ 10) digitValue ds (x.toNat * 10 + digitValue c)
      rw [if_pos (hover.2 h), if_neg (by omega)]
    · have hnext : (x * 10#64 + (BitVec.ofNat 64 c.toNat - 48#64)).toNat =
          x.toNat * 10 + digitValue c := by
        rw [BitVec.toNat_add, BitVec.toNat_mul, hdigit, BitVec.toNat_ofNat]
        omega
      rw [if_neg fun hx => h (hover.1 hx), ih fun d hd => hds d (List.mem_cons_of_mem c hd), hnext]

theorem toNat_hexDigit {c : UInt8} (hc : isXDigit c = true) (hd : ¬ isDigit c = true) :
    (BitVec.ofNat 64 (toUpper c).toNat - 65#64 + 10#64).toNat = hexDigitValue c := by
  have hb := toUpper_bounds hc hd
  rw [hexDigitValue, if_neg hd, BitVec.toNat_add, BitVec.toNat_sub, BitVec.toNat_ofNat,
    BitVec.toNat_ofNat, BitVec.toNat_ofNat]
  omega

theorem hexDigitValue_lt {c : UInt8} (hc : isXDigit c = true) : hexDigitValue c < 16 := by
  rw [hexDigitValue]
  by_cases hd : isDigit c = true
  · have := isDigit_iff.1 hd
    rw [if_pos hd, digitValue]
    omega
  · have := toUpper_bounds hc hd
    rw [if_neg hd]
    omega

/-- The digits of a number of 64 bits. -/
theorem toNat_lexHexadecimal {ds : List UInt8} (hds : ∀ c ∈ ds, isXDigit c = true) (res : BitVec 64)
    (h : ds.foldl (fun v c => v * 16 + hexDigitValue c) res.toNat < 2 ^ 64) :
    (lexHexadecimal res ds).toNat = ds.foldl (fun v c => v * 16 + hexDigitValue c) res.toNat := by
  induction ds generalizing res with
  | nil => rfl
  | cons c ds ih =>
    have hc := hds c List.mem_cons_self
    rw [List.foldl_cons] at h ⊢
    have hmore := le_foldl (by decide : 1 ≤ 16) hexDigitValue ds (res.toNat * 16 + hexDigitValue c)
    have hrest : ∀ v : BitVec 64, v.toNat = hexDigitValue c →
        (lexHexadecimal (res * 16#64 + v) ds).toNat =
          ds.foldl (fun v c => v * 16 + hexDigitValue c) (res.toNat * 16 + hexDigitValue c) := by
      intro v hv
      have hnext : (res * 16#64 + v).toNat = res.toNat * 16 + hexDigitValue c := by
        rw [BitVec.toNat_add, BitVec.toNat_mul, hv, BitVec.toNat_ofNat]
        omega
      rw [ih (fun d hd => hds d (List.mem_cons_of_mem c hd)) _ (by rw [hnext]; exact h), hnext]
    rw [lexHexadecimal]
    by_cases hd : isDigit c = true
    · rw [if_pos hd]
      refine hrest _ ?_
      rw [toNat_digit hd, hexDigitValue, if_pos hd]
    · rw [if_neg hd]
      exact hrest _ (toNat_hexDigit hc hd)

/-- A hexadecimal number is below the power of its length. -/
theorem hexValue_lt {digits : List UInt8} (h : ∀ c ∈ digits, isXDigit c = true) :
    hexValue digits < 16 ^ digits.length := by
  have hlt := Nat.ofDigits_lt_base_pow_length (b := 16) (l := (digits.map hexDigitValue).reverse)
    (by decide) (by
      intro v hv
      rw [List.mem_reverse, List.mem_map] at hv
      obtain ⟨c, hc, rfl⟩ := hv
      exact hexDigitValue_lt (h c hc))
  rw [List.length_reverse, List.length_map] at hlt
  exact hlt

/-! ## The tokens -/

/-- The integer literals with their values as words of 64 bits, and what ends behind them. -/
inductive IntegerLiteral : List UInt8 → List UInt8 → BitVec 64 → Prop where
  | decimal {text rest : List UInt8} {v : BitVec 64} (h : DecimalText text) (hrest : Ends rest)
      (hfits : decimalValue text < 2 ^ 63) (hv : v.toNat = decimalValue text) :
      IntegerLiteral text rest v
  | hexadecimal {text rest digits : List UInt8} {v : BitVec 64} (h : HexText text digits)
      (hrest : HexEnds rest) (hfits : digits.length ≤ 16) (hv : v.toNat = hexValue digits) :
      IntegerLiteral text rest v

variable (fromChars : List UInt8 → FromChars)

theorem cleaned_digits {text : List UInt8} (h : ∀ c ∈ text, isDigit c = true ∨ c = underscore) :
    ∀ c ∈ cleaned text, isDigit c = true := by
  intro c hc
  rw [cleaned, List.mem_filter] at hc
  exact (h c hc.1).resolve_right (of_decide_eq_true hc.2)

theorem HexText.digits_xdigit {text digits : List UInt8} (h : HexText text digits) :
    ∀ c ∈ digits, isXDigit c = true := by
  obtain ⟨us, x, us', w, -, -, -, -, -, hall, rfl⟩ := h
  intro c hc
  rw [cleaned, List.mem_filter] at hc
  exact (hall c hc.1).resolve_right (of_decide_eq_true hc.2)

/-- A decimal number is read with its value, or it is too large. -/
theorem readNumber_decimal {text rest : List UInt8} (h : DecimalText text) (hrest : Ends rest) :
    readNumber fromChars (text ++ rest) =
      if decimalValue text < 2 ^ 63 then
        .ok (.integer (.ofNat 64 (decimalValue text)), rest)
      else .error .literalOverflow := by
  have hlex := lexInteger_eq (cleaned_digits h.chars) 0#64
  rw [show (0#64).toNat = 0 from rfl, ← decimalValue_eq] at hlex
  rw [readNumber, scanNumber_of_numberText ((decimalText_iff text).1 h) hrest]
  dsimp only
  rw [numberValue, hlex]
  by_cases hfits : decimalValue text < 2 ^ 63
  · rw [if_pos hfits, if_pos hfits]
    rfl
  · rw [if_neg hfits, if_neg hfits]
    rfl

/-- A hexadecimal number is read with its value, or it has too many digits. -/
theorem readNumber_hexadecimal {text digits rest : List UInt8} (h : HexText text digits)
    (hrest : HexEnds rest) :
    readNumber fromChars (text ++ rest) =
      if 16 < digits.length then .error .hexTooManyDigits
      else .ok (.integer (lexHexadecimal 0#64 digits), rest) := by
  rw [readNumber, scanNumber_of_hexText h hrest]
  by_cases hmany : 16 < digits.length
  · rw [if_pos hmany, if_pos hmany]
  · rw [if_neg hmany, if_neg hmany]
    rfl

/-- Sixteen digits are a word. -/
theorem toNat_lexHexadecimal_zero {digits : List UInt8} (h : ∀ c ∈ digits, isXDigit c = true)
    (hfits : digits.length ≤ 16) : (lexHexadecimal 0#64 digits).toNat = hexValue digits := by
  have hlt := hexValue_lt h
  have hpow : 16 ^ digits.length ≤ 16 ^ 16 := Nat.pow_le_pow_right (by decide) hfits
  rw [hexValue_eq] at hlt ⊢
  exact toNat_lexHexadecimal h 0#64 (Nat.lt_of_lt_of_le hlt hpow)

/-- A number that is no integer gets the value of its text as a float. -/
theorem numberValue_float {text : List UInt8} {t : NumType} (ht : t ≠ .int)
    (h : NumberText text t) (L : List UInt8) :
    numberValue fromChars t L = (floatValue fromChars L).map .float := by
  obtain ⟨c, us, w, -, -, -, hcont, -⟩ := h
  rcases continues_type hcont with rfl | rfl | rfl
  · exact absurd rfl ht
  · rfl
  · rfl

/-- A float is read with the value of its text. -/
theorem readNumber_float {text rest : List UInt8} (h : FloatText text) (hrest : Ends rest) :
    readNumber fromChars (text ++ rest) =
      (floatValue fromChars (cleaned text)).map fun f => (.float f, rest) := by
  obtain ⟨t, ht, htext⟩ := h
  rw [readNumber, scanNumber_of_numberText htext hrest]
  dsimp only
  rw [numberValue_float fromChars ht htext]
  cases floatValue fromChars (cleaned text) with
  | error e => rfl
  | ok f => rfl

/-- What `ReadNumber` reads is a literal. -/
theorem literal_of_readNumber {src rest : List UInt8} {tok : NumberToken}
    (hfirst : isDigit (curChar src) = true)
    (h : readNumber fromChars src = .ok (tok, rest)) :
    ∃ text, src = text ++ rest ∧
      ((DecimalText text ∧ Ends rest) ∨ (FloatText text ∧ Ends rest) ∨
        ∃ digits, HexText text digits ∧ HexEnds rest) := by
  rw [readNumber] at h
  cases hscan : scanNumber src with
  | error e =>
    rw [hscan] at h
    cases h
  | ok r =>
    obtain ⟨t, L, rest'⟩ := r
    rw [hscan] at h
    dsimp only at h
    cases hvalue : numberValue fromChars t L with
    | error e =>
      rw [hvalue] at h
      cases h
    | ok tok' =>
      rw [hvalue] at h
      cases h
      obtain ⟨text, hsrc, ⟨-, htext, -, hends⟩ | ⟨-, htext, hends, -⟩⟩ :=
        text_of_scanNumber hfirst hscan
      · by_cases ht : t = .int
        · rw [ht] at htext
          exact ⟨text, hsrc, Or.inl ⟨(decimalText_iff text).2 htext, hends⟩⟩
        · exact ⟨text, hsrc, Or.inr (Or.inl ⟨⟨t, ht, htext⟩, hends⟩)⟩
      · exact ⟨text, hsrc, Or.inr (Or.inr ⟨L, htext, hends⟩)⟩

/-- **Integer literals are exact.** -/
theorem readNumber_exact (fromChars : List UInt8 → FromChars) (src : List UInt8)
    (hfirst : isDigit (curChar src) = true) :
    (∀ v rest, readNumber fromChars src = .ok (.integer v, rest) ↔
      ∃ text, src = text ++ rest ∧ IntegerLiteral text rest v) ∧
    (∀ f rest, readNumber fromChars src = .ok (.float f, rest) ↔
      ∃ text, src = text ++ rest ∧ FloatText text ∧ Ends rest ∧
        floatValue fromChars (cleaned text) = .ok f) ∧
    (∀ text rest, src = text ++ rest → DecimalText text → Ends rest →
      2 ^ 63 ≤ decimalValue text → readNumber fromChars src = .error .literalOverflow) ∧
    (∀ text digits rest, src = text ++ rest → HexText text digits → HexEnds rest →
      2 ^ 64 ≤ hexValue digits → readNumber fromChars src = .error .hexTooManyDigits) := by
  refine ⟨fun v rest => ⟨fun h => ?_, ?_⟩, fun f rest => ⟨fun h => ?_, ?_⟩, ?_, ?_⟩
  · obtain ⟨text, hsrc, ⟨htext, hends⟩ | ⟨htext, hends⟩ | ⟨digits, htext, hends⟩⟩ :=
      literal_of_readNumber fromChars hfirst h
    · rw [hsrc, readNumber_decimal fromChars htext hends] at h
      by_cases hfits : decimalValue text < 2 ^ 63
      · rw [if_pos hfits] at h
        cases h
        refine ⟨text, hsrc, .decimal htext hends hfits ?_⟩
        rw [BitVec.toNat_ofNat, Nat.mod_eq_of_lt (by omega)]
      · rw [if_neg hfits] at h
        cases h
    · rw [hsrc, readNumber_float fromChars htext hends] at h
      cases hf : floatValue fromChars (cleaned text) with
      | error e =>
        rw [hf] at h
        cases h
      | ok f =>
        rw [hf] at h
        cases h
    · rw [hsrc, readNumber_hexadecimal fromChars htext hends] at h
      by_cases hmany : 16 < digits.length
      · rw [if_pos hmany] at h
        cases h
      · rw [if_neg hmany] at h
        cases h
        exact ⟨text, hsrc, .hexadecimal htext hends (Nat.le_of_not_lt hmany)
          (toNat_lexHexadecimal_zero htext.digits_xdigit (Nat.le_of_not_lt hmany))⟩
  · rintro ⟨text, rfl, hlit⟩
    cases hlit with
    | decimal htext hends hfits hv =>
      rw [readNumber_decimal fromChars htext hends, if_pos hfits]
      have hword : BitVec.ofNat 64 (decimalValue text) = v := by
        rw [← hv, BitVec.ofNat_toNat, BitVec.setWidth_eq]
      rw [hword]
    | hexadecimal htext hends hfits hv =>
      rename_i digits
      rw [readNumber_hexadecimal fromChars htext hends, if_neg (Nat.not_lt_of_le hfits)]
      have hword : lexHexadecimal 0#64 digits = v :=
        BitVec.eq_of_toNat_eq ((toNat_lexHexadecimal_zero htext.digits_xdigit hfits).trans hv.symm)
      rw [hword]
  · obtain ⟨text, hsrc, ⟨htext, hends⟩ | ⟨htext, hends⟩ | ⟨digits, htext, hends⟩⟩ :=
      literal_of_readNumber fromChars hfirst h
    · rw [hsrc, readNumber_decimal fromChars htext hends] at h
      split at h <;> cases h
    · refine ⟨text, hsrc, htext, hends, ?_⟩
      rw [hsrc, readNumber_float fromChars htext hends] at h
      cases hf : floatValue fromChars (cleaned text) with
      | error e =>
        rw [hf] at h
        cases h
      | ok g =>
        rw [hf] at h
        cases h
        rfl
    · rw [hsrc, readNumber_hexadecimal fromChars htext hends] at h
      split at h <;> cases h
  · rintro ⟨text, rfl, htext, hends, hvalue⟩
    rw [readNumber_float fromChars htext hends, hvalue]
    rfl
  · rintro text rest rfl htext hends hover
    rw [readNumber_decimal fromChars htext hends, if_neg (Nat.not_lt_of_le hover)]
  · rintro text digits rest rfl htext hends hover
    rw [readNumber_hexadecimal fromChars htext hends, if_pos]
    -- a number of sixteen digits would be smaller
    by_contra hfew
    have hlt := hexValue_lt htext.digits_xdigit
    have hpow : 16 ^ digits.length ≤ 16 ^ 16 :=
      Nat.pow_le_pow_right (by decide) (Nat.le_of_not_lt hfew)
    omega

/-- `1_000` in front of a semicolon. -/
theorem readNumber_exact_thousand :
    readNumber (fun _ => ⟨.ofInt 0, 0, false⟩) [49, 95, 48, 48, 48, 59] =
      .ok (.integer 1000#64, [59]) :=
  ((readNumber_exact (fun _ => ⟨.ofInt 0, 0, false⟩) [49, 95, 48, 48, 48, 59] (by decide)).1
    1000#64 [59]).2 ⟨[49, 95, 48, 48, 48], rfl,
      .decimal ⟨by decide, by decide +kernel, by decide⟩
      ⟨by decide, by decide, by decide⟩ (by decide) (by decide)⟩

end Quirrel.Lexer
